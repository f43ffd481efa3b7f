import BekenCam.BkloaderModel
import BekenCam.StepRuns

/-!
# The image and nothing else

Every chunk but the last ends where a sector ends, so the sectors of one chunk hold no byte of
another. What a chunk erases it programs again, and the rest of its last sector stays erased.
-/
namespace BekenCam.Bkloader

open Nor Flash Crc32

/-! ## The device's command -/

theorem ramBytes_loadi (d : Device) (bufAddr : ℕ) (chunk : List UInt8) :
    (d.loadi bufAddr chunk).ramBytes bufAddr chunk.length = chunk := by
  refine List.ext_getElem (by simp [Device.ramBytes]) fun i hi hi' => ?_
  simp [Device.ramBytes, Device.loadi, hi']

/-- `n` sectors, from the `k`-th on. -/
theorem eraseSectors_spec (n : ℕ) {k m : ℕ} (hcount : k + n = m + 1)
    (hbus : m < 4096) (c : Chip) :
    ∃ ops, Chip.Changes c (eraseSectors c (k * 4096) (m * 4096)) (k * 4096) ((m + 1) * 4096) ops ∧
      (∀ op ∈ ops, ∃ lo hi, op = .erase lo hi) ∧
      ∀ a, k * 4096 ≤ a → a < (m + 1) * 4096 →
        (eraseSectors c (k * 4096) (m * 4096)).cells a = 0xFF := by
  induction n generalizing k c with
  | zero =>
    rw [eraseSectors, if_neg (by omega)]
    exact ⟨[], .refl .., nofun, fun a ha ha' => absurd ha (by omega)⟩
  | succ n ih =>
    have hmore : k * 4096 ≤ m * 4096 := Nat.mul_le_mul_right 4096 (by omega)
    have hback : k * 4096 ≤ (k + 1) * 4096 := Nat.mul_le_mul_right 4096 (Nat.le_succ k)
    have hend : k * 4096 + 4096 ≤ (m + 1) * 4096 := by
      rw [← Nat.succ_mul]
      exact Nat.mul_le_mul_right 4096 (by omega)
    have hsector : flashEraseSector c (k * 4096) = c.erase (k * 4096) 4096 := by
      unfold flashEraseSector flashSectorSize
      rw [Nat.mul_div_cancel k (by decide), bus_of_lt (by omega)]
    have hnext : k * 4096 + flashSectorSize = (k + 1) * 4096 := by
      rw [flashSectorSize]
      omega
    have hfirst := (Chip.changes_erase c (k * 4096) 4096).mono le_rfl hend
    obtain ⟨ops, hchanges, herases, hblank⟩ := @ih (k + 1) (by omega) (c.erase (k * 4096) 4096)
    have hrest := hchanges.mono hback le_rfl
    rw [eraseSectors, if_pos hmore, hsector, hnext]
    refine ⟨_, hfirst.trans hrest, ?_, fun a ha ha' => ?_⟩
    · rw [List.forall_mem_append]
      exact ⟨fun op hop => ⟨_, _, List.mem_singleton.mp hop⟩, herases⟩
    · rcases Nat.lt_or_ge a ((k + 1) * 4096) with hlt | hge
      · rw [hchanges.frame a (.inl hlt), Chip.cells_erase, if_pos ⟨ha, by omega⟩]
      · exact hblank a hge ha'

/-- The end of the last sector with a byte below `a`. -/
def sectorEnd (a : ℕ) : ℕ := (a + 4095) / 4096 * 4096

/-- From a sector boundary on: these bytes, in sectors that were erased first. -/
theorem commandFlashWrite_spec {d d' : Device} {fromAddr toAddr size checksum : ℕ} {crc : UInt32}
    (h : commandFlashWrite d fromAddr toAddr size checksum = some (crc, d'))
    (halign : toAddr % 4096 = 0) (hbus : sectorEnd (toAddr + size) ≤ 2 ^ 24) :
    ∃ ops, Chip.Changes d.chip d'.chip toAddr (sectorEnd (toAddr + size)) ops ∧
      ops.Pairwise Op.Spares ∧
      ∀ i < size, d'.chip.cells (toAddr + i) = (d.ramBytes fromAddr size).getD i 0 := by
  unfold commandFlashWrite at h
  split_ifs at h with hchecksum hram hsize
  obtain ⟨-, rfl⟩ := Prod.mk.inj (Option.some.inj h)
  have hlen : (d.ramBytes fromAddr size).length = size := by simp [Device.ramBytes]
  obtain ⟨k, rfl⟩ : ∃ k, toAddr = k * 4096 := ⟨toAddr / 4096, by omega⟩
  obtain ⟨m, hm⟩ : ∃ m, m = (k * 4096 + size - 1) / 4096 := ⟨_, rfl⟩
  have hend : sectorEnd (k * 4096 + size) = (m + 1) * 4096 := by
    unfold sectorEnd
    omega
  have hlast : m < 4096 := by omega
  obtain ⟨n, hn⟩ : ∃ n, k + n = m + 1 := ⟨m + 1 - k, by omega⟩
  rw [hend] at hbus ⊢
  obtain ⟨erases, herased, hkinds, hblank⟩ := eraseSectors_spec n hn hlast d.chip
  have hfits : k * 4096 + size ≤ (m + 1) * 4096 := by
    clear hbus
    omega
  set c₁ := eraseSectors d.chip (k * 4096) (m * 4096) with hc₁
  have hready : ∀ a, k * 4096 ≤ a → a < k * 4096 + (d.ramBytes fromAddr size).length →
      c₁.cells a = 0xFF := by
    intro a ha ha'
    rw [hlen] at ha'
    exact hblank a ha (by omega)
  obtain ⟨programs, hwritten, hkinds', hcells⟩ := flashWrite_spec ⟨k * 128, by ring⟩
    ⟨(m + 1) * 128, by ring⟩ hbus le_rfl (by rw [hlen]; exact hfits) hready
  have hfirst : (k * 4096 + size - 1) / flashSectorSize * flashSectorSize = m * 4096 := by
    rw [hm]
    rfl
  have hstart : k * 4096 / flashSectorSize * flashSectorSize = k * 4096 := by
    rw [flashSectorSize, Nat.mul_div_cancel k (by decide)]
  dsimp only
  rw [hfirst, hstart, ← hc₁]
  refine ⟨_, herased.trans hwritten, ?_, fun i hi => ?_⟩
  · refine List.pairwise_append.mpr ⟨?_, ?_, fun op hop op' hop' => ?_⟩
    · exact List.pairwise_of_forall_mem_list fun op hop op' _ => by
        obtain ⟨lo, hi, rfl⟩ := hkinds op hop
        trivial
    · exact List.pairwise_of_forall_mem_list fun op hop op' hop' => by
        obtain ⟨lo, hi, rfl⟩ := hkinds' op hop
        obtain ⟨lo', hi', rfl⟩ := hkinds' op' hop'
        trivial
    · obtain ⟨lo, hi, rfl⟩ := hkinds op hop
      trivial
  · rw [hcells, hlen, if_pos (by omega), Nat.add_sub_cancel_left]

/-! ## The host's loop -/

/-- The first `done` bytes are in the flash, and only their sectors were touched. -/
def Progress (data : List UInt8) (base done : ℕ) (c c' : Chip) : Prop :=
  ∃ ops, Chip.Changes c c' base (sectorEnd (base + done)) ops ∧ ops.Pairwise Op.Spares ∧
    ∀ i < done, c'.cells (base + i) = data.getD i 0

theorem progress_start (data : List UInt8) (base : ℕ) (c : Chip) : Progress data base 0 c c :=
  ⟨[], .refl .., .nil, nofun⟩

theorem getD_slice {α : Type*} (l : List α) (off : ℕ) {n i : ℕ} (h : i < n) (d : α) :
    (slice l off n).getD i d = l.getD (off + i) d := by
  simp only [slice, List.getD_eq_getElem?_getD, List.getElem?_take, if_pos h, List.getElem?_drop]

/-- A chunk that starts where a sector starts. -/
theorem flashChunk_spec {data : List UInt8} {base chunkSize bufAddr i off done : ℕ}
    {fwCrc : UInt32} {c : Chip} {d d' : Device} (hoff : off = i * chunkSize)
    (hprogress : Progress data base off c d.chip) (halign : (base + off) % 4096 = 0)
    (hdone : done = off + min chunkSize (data.length - off))
    (hbus : sectorEnd (base + done) ≤ 2 ^ 24)
    (h : flashChunk data base chunkSize bufAddr fwCrc i d = some d') :
    Progress data base done c d'.chip := by
  obtain ⟨ops, hchanges, hpairs, hcells⟩ := hprogress
  unfold flashChunk at h
  rw [← hoff] at h
  dsimp only at h
  set chunk := slice data off chunkSize with hchunk
  have hlen : chunk.length = min chunkSize (data.length - off) := length_slice ..
  split_ifs at h with hload
  cases hwrite : stepFlashWrite (d.loadi bufAddr chunk) bufAddr (base + off) chunk.length with
  | none =>
    rw [hwrite] at h
    cases h
  | some answer =>
    obtain ⟨flashCrc, d₁⟩ := answer
    rw [hwrite] at h
    dsimp only at h
    split_ifs at h with hcrc
    obtain rfl := Option.some.inj h
    have hend : base + off + chunk.length = base + done := by omega
    obtain ⟨more, hmore, hpairs', hcells'⟩ := commandFlashWrite_spec hwrite halign
      (by rw [hend]; exact hbus)
    rw [ramBytes_loadi] at hcells'
    rw [hend] at hmore
    have hsector : sectorEnd (base + off) = base + off := by
      unfold sectorEnd
      omega
    have hgrow : base + off ≤ sectorEnd (base + done) := by
      unfold sectorEnd
      omega
    rw [hsector] at hchanges
    refine ⟨ops ++ more, (hchanges.mono le_rfl hgrow).trans (hmore.mono (by omega) le_rfl),
      List.pairwise_append.mpr ⟨hpairs, hpairs', fun op hop op' hop' => ?_⟩, fun j hj => ?_⟩
    · exact Op.spares_of_le ((hchanges.inside op hop).2.trans (hmore.inside op' hop').1)
    · rcases Nat.lt_or_ge j off with hold | hnew
      · rw [hmore.frame _ (.inl (by omega))]
        exact hcells j hold
      · obtain ⟨k, rfl⟩ := Nat.exists_eq_add_of_le hnew
        have hk : k < chunk.length := by omega
        rw [← Nat.add_assoc, hcells' k hk, hchunk, getD_slice _ _ (by omega)]

/-- The image is in the flash, no other sector was touched, and no erase hit what was programmed
before it. -/
structure Flashed (data : List UInt8) (base : ℕ) (c c' : Chip) (ops : List Op) : Prop where
  image : c'.read base data.length = data
  journal : c'.journal = c.journal ++ ops
  sectors : ∀ op ∈ ops, ∀ a, op.lo ≤ a → a < op.hi →
    ∃ i < data.length, a / sectorSize = (base + i) / sectorSize
  spared : ops.Pairwise Op.Spares

theorem Progress.flashed {data : List UInt8} {base : ℕ} {c c' : Chip} (hpos : 0 < data.length)
    (halign : base % 4096 = 0) (h : Progress data base data.length c c') :
    ∃ ops, Flashed data base c c' ops := by
  obtain ⟨ops, hchanges, hpairs, hcells⟩ := h
  refine ⟨ops, Chip.read_eq_iff.mpr hcells, hchanges.journal, fun op hop a hlo hhi => ?_, hpairs⟩
  obtain ⟨hfrom, hto⟩ := hchanges.inside op hop
  unfold sectorEnd at hto
  unfold sectorSize
  rcases Nat.lt_or_ge a (base + data.length) with hin | hlast
  · exact ⟨a - base, by omega, by congr 1; omega⟩
  · exact ⟨data.length - 1, by omega, by omega⟩

theorem segment_fits (seg : Segment) :
    seg.addr % 4096 = 0 ∧ seg.addr + seg.size + 4096 ≤ 2 ^ 24 := by
  cases seg <;> decide

/-- A chunk that is not empty starts where a sector starts: only a single chunk is not a multiple. -/
theorem chunk_aligned {chunkArg fileSize k : ℕ} (hmultiple : chunkArg % 4096 = 0)
    (hk : k * min chunkArg fileSize < fileSize) : k * min chunkArg fileSize % 4096 = 0 := by
  rcases Nat.le_total chunkArg fileSize with hle | hle
  · rw [Nat.min_eq_left hle, Nat.mul_mod, hmultiple, Nat.mul_zero, Nat.zero_mod]
  · rw [Nat.min_eq_right hle] at hk ⊢
    have hzero : k = 0 := by
      by_contra hne
      exact absurd (Nat.le_mul_of_pos_left fileSize (Nat.pos_of_ne_zero hne)) (Nat.not_le.mpr hk)
    rw [hzero, Nat.zero_mul]

/-- Whatever `loadi` answers, if the host gets to the end. -/
theorem mode_flash_writes_image {seg : Segment} {data : List UInt8} {chunkArg bufAddr : ℕ}
    {fwCrc : ℕ → UInt32} {d d' : Device} (h : modeFlash seg data chunkArg bufAddr fwCrc d = some d') :
    ∃ ops, Flashed data seg.addr d.chip d'.chip ops := by
  obtain ⟨halign, hbus⟩ := segment_fits seg
  unfold modeFlash at h
  dsimp only at h
  split_ifs at h with hmultiple hsize hzero
  rw [not_not] at hmultiple
  obtain ⟨chunkSize, hchunk⟩ : ∃ n, n = min chunkArg data.length := ⟨_, rfl⟩
  rw [← hchunk] at h hzero
  have hpos : 0 < chunkSize := Nat.pos_of_ne_zero hzero
  have hlast : data.length ≤ (data.length + chunkSize - 1) / chunkSize * chunkSize := by
    have hlt := (Nat.div_lt_iff_lt_mul hpos).mp
      (Nat.lt_succ_self ((data.length + chunkSize - 1) / chunkSize))
    rw [Nat.succ_mul] at hlt
    omega
  have hpass : ∀ (k : ℕ) (s s' : Device), k < (data.length + chunkSize - 1) / chunkSize →
      Progress data seg.addr (min (k * chunkSize) data.length) d.chip s.chip →
      flashChunk data seg.addr chunkSize bufAddr (fwCrc k) k s = some s' →
      Progress data seg.addr (min ((k + 1) * chunkSize) data.length) d.chip s'.chip := by
    intro k s s' hk hinv hstep
    have hstart : k * chunkSize < data.length := by
      have hle := (Nat.le_div_iff_mul_le hpos).mp hk
      rw [Nat.succ_mul] at hle
      omega
    have haligned : k * chunkSize % 4096 = 0 := by
      rw [hchunk] at hstart ⊢
      exact chunk_aligned hmultiple hstart
    rw [Nat.min_eq_left hstart.le] at hinv
    refine flashChunk_spec rfl hinv (by omega) ?_ ?_ hstep
    · rw [Nat.succ_mul]
      omega
    · unfold sectorEnd
      have hmin : min ((k + 1) * chunkSize) data.length ≤ data.length := Nat.min_le_right ..
      omega
  have hstart : Progress data seg.addr (min (0 * chunkSize) data.length) d.chip d.chip := by
    rw [Nat.zero_mul, Nat.zero_min]
    exact progress_start data seg.addr d.chip
  have hloop := invariant_of_foldlM hpass hstart h
  rw [Nat.min_eq_right hlast] at hloop
  exact hloop.flashed (by omega) halign

/-! ## When the host gets to the end -/

/-- The chunks of `flash_crc32` make no difference. -/
theorem crcLoop_eq (c : Chip) {addr size : ℕ} (hbus : addr + size ≤ 2 ^ 24) (crc : UInt32) :
    crcLoop c addr size crc = crc32Update crc (c.read addr size) := by
  induction size using Nat.strong_induction_on generalizing addr crc with
  | _ size ih =>
    rw [crcLoop]
    split_ifs with hzero
    · rw [hzero]
      rfl
    · obtain ⟨n, hn⟩ : ∃ n, n = min size crcChunk := ⟨_, rfl⟩
      have hpos : 0 < n ∧ n ≤ size := by
        unfold crcChunk at hn
        omega
      have hsplit := c.read_add addr n (size - n)
      rw [Nat.add_sub_cancel' hpos.2] at hsplit
      dsimp only
      rw [← hn, ih (size - n) (by omega) (by omega), flashRead_eq (by omega), hsplit]
      exact (List.foldl_append ..).symm

theorem flashCrc32_eq (c : Chip) {addr size : ℕ} (hbus : addr + size ≤ 2 ^ 24) :
    flashCrc32 c addr size = crc32 (c.read addr size) :=
  congrArg crc32Final (crcLoop_eq c hbus crc32Init)

/-- A command that passes its checks answers the checksum of what it wrote. -/
theorem commandFlashWrite_total {d : Device} {fromAddr toAddr size checksum : ℕ}
    (hchecksum : validChecksum fromAddr toAddr size checksum = true)
    (hram : validRam fromAddr = true) (hsize : size ≠ 0) (halign : toAddr % 4096 = 0)
    (hbus : sectorEnd (toAddr + size) ≤ 2 ^ 24) :
    ∃ d', commandFlashWrite d fromAddr toAddr size checksum =
      some (crc32 (d.ramBytes fromAddr size), d') := by
  obtain ⟨crc, d', hrun, hcrc⟩ : ∃ crc d',
      commandFlashWrite d fromAddr toAddr size checksum = some (crc, d') ∧
        crc = flashCrc32 d'.chip toAddr size := by
    rw [commandFlashWrite, if_neg (by simp [hchecksum]), if_neg (by simp [hram]), if_neg hsize]
    exact ⟨_, _, rfl, rfl⟩
  obtain ⟨ops, -, -, hcells⟩ := commandFlashWrite_spec hrun halign hbus
  have hlen : (d.ramBytes fromAddr size).length = size := by simp [Device.ramBytes]
  have hend : toAddr + size ≤ 2 ^ 24 := by
    unfold sectorEnd at hbus
    omega
  have hread : d'.chip.read toAddr (d.ramBytes fromAddr size).length = d.ramBytes fromAddr size :=
    Chip.read_eq_iff.mpr (by rwa [hlen])
  rw [hlen] at hread
  exact ⟨d', by rw [hrun, hcrc, flashCrc32_eq _ hend, hread]⟩

/-- A chunk whose checksum `loadi` answers goes through. -/
theorem flashChunk_total {data : List UInt8} {base chunkSize bufAddr k : ℕ}
    (hmore : k * chunkSize < data.length) (hpos : chunkSize ≠ 0)
    (halign : (base + k * chunkSize) % 4096 = 0) (hbus : base + data.length + 4096 ≤ 2 ^ 24)
    (hram : validRam bufAddr = true) (d : Device) :
    ∃ d', flashChunk data base chunkSize bufAddr (crc32 (slice data (k * chunkSize) chunkSize)) k d =
      some d' := by
  have hlen : (slice data (k * chunkSize) chunkSize).length =
      min chunkSize (data.length - k * chunkSize) := length_slice ..
  obtain ⟨chunk, hchunk⟩ : ∃ l, l = slice data (k * chunkSize) chunkSize := ⟨_, rfl⟩
  rw [← hchunk] at hlen ⊢
  obtain ⟨d', hrun⟩ : ∃ d', stepFlashWrite (d.loadi bufAddr chunk) bufAddr (base + k * chunkSize)
      chunk.length = some (crc32 ((d.loadi bufAddr chunk).ramBytes bufAddr chunk.length), d') :=
    commandFlashWrite_total (decide_eq_true rfl) hram (by omega) halign
      (by unfold sectorEnd; omega)
  rw [ramBytes_loadi] at hrun
  refine ⟨d', ?_⟩
  unfold flashChunk
  dsimp only
  rw [← hchunk, if_neg (not_not.mpr rfl), hrun]
  exact if_neg (not_not.mpr rfl)

/-- So does the image. -/
theorem modeFlash_total {seg : Segment} {data : List UInt8} {chunkArg bufAddr : ℕ}
    (hmultiple : chunkArg % 4096 = 0) (hchunk : chunkArg ≠ 0) (hdata : data.length ≠ 0)
    (hsize : data.length ≤ seg.size) (hram : validRam bufAddr = true) (d : Device) :
    ∃ d', modeFlash seg data chunkArg bufAddr (fun k => crc32
      (slice data (k * min chunkArg data.length) (min chunkArg data.length))) d = some d' := by
  obtain ⟨halign, hbus⟩ := segment_fits seg
  have hpos : min chunkArg data.length ≠ 0 := by omega
  unfold modeFlash sectorSize
  dsimp only
  rw [if_neg (not_not.mpr hmultiple), if_neg (Nat.not_lt.mpr hsize), if_neg hpos]
  refine exists_of_foldlM (fun k hk s => ?_) d
  have hmore : k * min chunkArg data.length < data.length := by
    have hle := (Nat.le_div_iff_mul_le (Nat.pos_of_ne_zero hpos)).mp hk
    rw [Nat.succ_mul] at hle
    omega
  have haligned := chunk_aligned hmultiple hmore
  exact flashChunk_total hmore hpos (by omega) (by omega) hram s

/-- A device whose flash holds zeroes. -/
def blankDevice : Device := ⟨⟨fun _ => 0, []⟩, fun _ => 0⟩

/-- An image of a sector and a byte. -/
def twoChunks : List UInt8 := (List.range 4097).map UInt8.ofNat

theorem mode_flash_writes_image_app :
    ∃ fwCrc d', modeFlash .app twoChunks 4096 0x00400000 fwCrc blankDevice = some d' ∧
      ∃ ops, Flashed twoChunks Segment.app.addr blankDevice.chip d'.chip ops := by
  have hlen : twoChunks.length = 4097 := by rw [twoChunks, List.length_map, List.length_range]
  obtain ⟨d', hrun⟩ : ∃ d', modeFlash .app twoChunks 4096 0x00400000 (fun k => crc32
      (slice twoChunks (k * min 4096 twoChunks.length) (min 4096 twoChunks.length)))
      blankDevice = some d' :=
    modeFlash_total (by decide) (by decide) (by omega) (by rw [hlen]; decide) (by decide) _
  exact ⟨_, d', hrun, mode_flash_writes_image hrun⟩

end BekenCam.Bkloader
