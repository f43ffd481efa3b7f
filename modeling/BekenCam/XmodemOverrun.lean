import BekenCam.XmodemSound

/-!
# A transfer that fills the 32 bits

The receiver is sound for every buffer that ends a block or more before the 32 bits, and the RAM
windows it is called with are far smaller. For a larger one the sum in the test for room starts
again at zero, and a sender that follows the protocol to the letter brings the receiver past the
end.
-/
namespace BekenCam.Xmodem

open Prog

variable {fuel : ℕ} {maxLen : UInt32}

/-! ## Sending a block -/

theorem performs_getc {α : Type} {k : Option UInt8 → XmodemM α} {timeoutMs : ℕ}
    (c : Option UInt8) {es : List Event} {a : α} (h : Performs (k c) es a) :
    Performs (xmodemGetc timeoutMs >>= k) (⟨.getc timeoutMs, c⟩ :: es) a :=
  @Performs.call XmodemCmd XmodemCmd.Answer α (.getc timeoutMs) k c es a h

theorem performs_putc {α : Type} {k : Unit → XmodemM α} {c : UInt8} {es : List Event} {a : α}
    (h : Performs (k ()) es a) : Performs (xmodemPutc c >>= k) (said c :: es) a :=
  @Performs.call XmodemCmd XmodemCmd.Answer α (.putc c) k () es a h

theorem performs_memcpy {α : Type} {k : Unit → XmodemM α} {off : UInt32} {data : List UInt8}
    {es : List Event} {a : α} (h : Performs (k ()) es a) :
    Performs (memcpy off data >>= k) (stored off data :: es) a :=
  @Performs.call XmodemCmd XmodemCmd.Answer α (.memcpy off data) k () es a h

theorem recvExact_performs (data : List UInt8) (timeoutMs : ℕ) :
    Performs (xmodemRecvExact data.length timeoutMs)
      (data.map fun c => ⟨.getc timeoutMs, some c⟩) (some data) := by
  induction data with
  | nil => exact .ret _
  | cons c data ih =>
    refine performs_getc (some c) ?_
    rw [← List.append_nil (data.map _)]
    exact ih.bind (.ret (some (c :: data)))

/-- What the receiver reads of a block behind its header. -/
def Block.reads (b : Block) : List Event := b.wire.map fun c => byteRead (some c)

/-- An intact block is taken as one. -/
theorem recvBlock_performs (b : Block) :
    Performs (xmodemRecvBlock b.header) b.reads (.ok b.received) := by
  have hcomp : b.num ^^^ ~~~b.num = 0xFF := (complement_iff b.num (~~~b.num)).mpr rfl
  have hcrc := (crc_bytes _ _ b.data).mpr ⟨rfl, rfl⟩
  have hsize : (blockSize b.header).toNat = b.data.length := by rw [← b.size_eq, b.toNat_size]
  have hreads : b.reads = byteRead (some b.num) :: byteRead (some (~~~b.num)) ::
      ((b.data.map fun c => byteRead (some c)) ++
        [byteRead (some (UInt8.ofNat ((lineCrc b.data).toNat / 256))),
          byteRead (some (UInt8.ofNat (lineCrc b.data).toNat))]) := by
    simp [Block.reads, Block.wire]
  rw [hreads]
  refine performs_getc (some b.num) (performs_getc (some (~~~b.num)) ?_)
  dsimp only
  rw [if_neg (not_not.mpr hcomp), hsize]
  refine (recvExact_performs b.data XMODEM_TIMEOUT_BYTE_MS).bind
    (performs_getc (some _) (performs_getc (some _) ?_))
  dsimp only
  rw [if_neg (not_not.mpr hcrc), ← b.size_eq]
  exact .ret _

/-- The events of a turn that takes a block. -/
def takes (off : UInt32) (b : Block) : List Event :=
  headerRead (some b.header) :: (b.reads ++ [stored off b.data, said XMODEM_ACK])

theorem receiverTurn_takes {st : Receiver} {b : Block} (hnum : b.num = st.expected)
    (hfit : st.received + b.size ≤ maxLen) :
    Performs (receiverTurn fuel maxLen st) (takes st.received b)
      (.again ⟨st.received + b.size, st.expected + 1, 0, 0⟩) := by
  have hprev : b.num ≠ st.expected - 1 := by
    intro h
    have hnat := congrArg UInt8.toNat (hnum.symm.trans h)
    have hlt := st.expected.toNat_lt
    rw [UInt8.toNat_sub] at hnat
    have hone : (1 : UInt8).toNat = 1 := rfl
    omega
  obtain ⟨heot, hcan⟩ : some b.header ≠ some XMODEM_EOT ∧ some b.header ≠ some XMODEM_CAN := by
    unfold Block.header
    split <;> decide
  refine performs_getc (some b.header) ?_
  rw [if_neg heot, if_neg hcan, if_neg (by rw [b.isBlock_header]; decide)]
  refine (recvBlock_performs b).bind ?_
  dsimp only [Block.received]
  rw [if_neg hprev, if_neg (not_not.mpr hnum), if_neg (UInt32.not_lt.mpr hfit)]
  exact performs_memcpy (performs_putc (.ret _))

theorem openingTurn_takes {st : Opening} {b : Block} (hnum : b.num = 1) (hfit : b.size ≤ maxLen) :
    Performs (openingTurn fuel maxLen st) (said XMODEM_CCHAR :: takes 0 b)
      (.again (.inr ⟨b.size, 2, 0, st.canCount⟩)) := by
  refine performs_putc (performs_getc (some b.header) ?_)
  rw [if_pos b.isBlock_header]
  refine (recvBlock_performs b).bind ?_
  dsimp only [Block.received]
  rw [if_neg (not_not.mpr hnum), if_neg (UInt32.not_lt.mpr hfit)]
  exact performs_memcpy (performs_putc (.ret _))

/-- The end of the transfer is acknowledged. -/
theorem receiverTurn_ends (st : Receiver) :
    Performs (receiverTurn fuel maxLen st) [headerRead (some XMODEM_EOT), said XMODEM_ACK]
      (.done st.received.toInt32) :=
  performs_getc (some XMODEM_EOT) (performs_putc (.ret _))

def zeros : List UInt8 := List.replicate 1024 0

theorem length_zeros : zeros.length = 1024 := List.length_replicate

/-- A block of the larger size. -/
def kilobyte (num : UInt8) : Block := ⟨num, zeros, .inr length_zeros⟩

theorem size_kilobyte (num : UInt8) : (kilobyte num).size = 1024 := by
  rw [← UInt32.toNat_inj, Block.toNat_size]
  exact length_zeros

theorem toNat_add_kilobyte (n : UInt32) (num : UInt8) :
    (n + (kilobyte num).size).toNat = (n.toNat + 1024) % 2 ^ 32 := by
  rw [UInt32.toNat_add, size_kilobyte]
  rfl

/-! ## Buffers below the 32 bits -/

/-- Whatever comes on the line, and whenever, the receiver is sound. -/
theorem sound_of_lt (maxLen : UInt32) (hmax : maxLen.toNat < 2 ^ 32 - 1024) (fuel : ℕ)
    (es : List Event) (o : Option Int32) (h : Performs (xmodemReceive fuel maxLen) es o) :
    Sound maxLen es o :=
  .of_performs hmax h

/-- A block and the end of the transfer. -/
def oneKilobyte : List Event :=
  (said XMODEM_CCHAR :: takes 0 (kilobyte 1)) ++ [headerRead (some XMODEM_EOT), said XMODEM_ACK]

/-- Into a whole window of RAM. -/
theorem sound_of_lt_oneKilobyte : Performs (xmodemReceive 1 0x40000) oneKilobyte (some 1024) ∧
    Sound 0x40000 oneKilobyte (some 1024) := by
  have hopens : Performs (openingTurn 1 0x40000 ⟨0, 0⟩) (said XMODEM_CCHAR :: takes 0 (kilobyte 1))
      (.again (.inr ⟨1024, 2, 0, 0⟩)) := by
    rw [← size_kilobyte 1]
    exact openingTurn_takes (b := kilobyte 1) rfl (by rw [size_kilobyte]; decide)
  have hends : Performs (receiverLoop 1 0x40000 1 ⟨1024, 2, 0, 0⟩)
      [headerRead (some XMODEM_EOT), said XMODEM_ACK] (some 1024) :=
    (receiverTurn_ends ⟨1024, 2, 0, 0⟩).bind (.ret (some 1024))
  have hrun : Performs (xmodemReceive 1 0x40000) oneKilobyte (some 1024) := hopens.bind hends
  exact ⟨hrun, sound_of_lt 0x40000 (by decide) 1 oneKilobyte (some 1024) hrun⟩

/-! ## Filling the 32 bits -/

/-- The copy that goes over the end. -/
def overrun : UInt32 × List UInt8 := (UInt32.ofNat (2 ^ 32 - 1024), zeros)

theorem mem_stores_takes (off : UInt32) (b : Block) : (off, b.data) ∈ stores (takes off b) :=
  List.mem_filterMap.mpr ⟨stored off b.data, by simp [takes], rfl⟩

theorem mem_stores_append {es fs : List Event} {w : UInt32 × List UInt8} :
    w ∈ stores (es ++ fs) ↔ w ∈ stores es ∨ w ∈ stores fs := by
  rw [stores, List.filterMap_append, List.mem_append]
  rfl

theorem left_after {received n : ℕ} (hleft : received + 1024 * (n + 1 + 1) = 2 ^ 32) :
    (received + 1024) % 2 ^ 32 + 1024 * (n + 1) = 2 ^ 32 := by
  rw [Nat.mod_eq_of_lt (by linarith)]
  linarith

/-- With `n + 1` blocks left to the end of the 32 bits, the last of them is still copied. -/
theorem receiverLoop_overruns (hmax : 2 ^ 32 - 1024 ≤ maxLen.toNat) {n : ℕ} (st : Receiver)
    (hleft : st.received.toNat + 1024 * (n + 1) = 2 ^ 32) :
    ∃ es, Performs (receiverLoop fuel maxLen (n + 1) st) es none ∧ overrun ∈ stores es := by
  induction n generalizing st with
  | zero =>
    have hfit : st.received + (kilobyte st.expected).size ≤ maxLen := by
      rw [UInt32.le_iff_toNat_le, toNat_add_kilobyte]
      omega
    have hpause : Performs (receiverLoop fuel maxLen 0
        ⟨st.received + (kilobyte st.expected).size, st.expected + 1, 0, 0⟩) [] none := .ret none
    have hturn : Performs (receiverTurn fuel maxLen st) _ _ :=
      receiverTurn_takes (b := kilobyte st.expected) rfl hfit
    refine ⟨_, hturn.bind hpause, mem_stores_append.mpr (.inl ?_)⟩
    have hoff : st.received = UInt32.ofNat (2 ^ 32 - 1024) := by
      rw [← UInt32.toNat_inj, UInt32.toNat_ofNat']
      omega
    have hover : overrun = (st.received, (kilobyte st.expected).data) := by
      rw [hoff]
      rfl
    rw [hover]
    exact mem_stores_takes st.received (kilobyte st.expected)
  | succ n ih =>
    have hsum := toNat_add_kilobyte st.received st.expected
    have hfit : st.received + (kilobyte st.expected).size ≤ maxLen := by
      rw [UInt32.le_iff_toNat_le, hsum]
      omega
    have hturn : Performs (receiverTurn fuel maxLen st) _ _ :=
      receiverTurn_takes (b := kilobyte st.expected) rfl hfit
    have hrest : (st.received + (kilobyte st.expected).size).toNat + 1024 * (n + 1) = 2 ^ 32 :=
      (congrArg (· + 1024 * (n + 1)) hsum).trans (left_after hleft)
    obtain ⟨es, hrun, hmem⟩ := ih ⟨_, st.expected + 1, 0, 0⟩ hrest
    exact ⟨_, hturn.bind hrun, mem_stores_append.mpr (.inr hmem)⟩

/-- The run that goes over the end of the buffer. -/
theorem receive_overruns (hmax : 2 ^ 32 - 1024 ≤ maxLen.toNat) :
    ∃ fuel es, Performs (xmodemReceive fuel maxLen) es none ∧ overrun ∈ stores es := by
  have hsize : (kilobyte 1).size.toNat = 1024 := by
    rw [size_kilobyte]
    rfl
  have hfit : (kilobyte 1).size ≤ maxLen := by
    rw [UInt32.le_iff_toNat_le, hsize]
    omega
  obtain ⟨n, hn⟩ : ∃ n : ℕ, 1024 + 1024 * (n + 1) = 2 ^ 32 := ⟨4194302, by norm_num⟩
  obtain ⟨es, hrest, hmem⟩ : ∃ es, Performs (receiverLoop (n + 1) maxLen (n + 1)
      ⟨(kilobyte 1).size, 2, 0, 0⟩) es none ∧ overrun ∈ stores es :=
    receiverLoop_overruns hmax _ (by rw [hsize]; exact hn)
  have hturn : Performs (openingTurn (n + 1) maxLen ⟨0, 0⟩) _ _ :=
    openingTurn_takes (b := kilobyte 1) rfl hfit
  exact ⟨n + 1, _, hturn.bind hrest, mem_stores_append.mpr (.inr hmem)⟩

/-- No buffer has room for it. -/
theorem not_sound_of_overrun {es : List Event} {o : Option Int32} (hmem : overrun ∈ stores es) :
    ¬Sound maxLen es o := by
  intro hsound
  have hbound := hsound.inBounds overrun hmem
  have hlt := maxLen.toNat_lt
  have hend : overrun.1.toNat + overrun.2.length = 2 ^ 32 := by
    rw [overrun, length_zeros]
    rfl
  omega

/-- The receiver is sound exactly when the buffer ends a block or more before the 32 bits. -/
theorem receive_sound_iff (maxLen : UInt32) :
    (∀ fuel es o, Performs (xmodemReceive fuel maxLen) es o → Sound maxLen es o) ↔
      maxLen.toNat < 2 ^ 32 - 1024 := by
  constructor
  · intro hsound
    by_contra hmax
    obtain ⟨fuel, es, hrun, hmem⟩ := receive_overruns (Nat.le_of_not_lt hmax)
    exact not_sound_of_overrun hmem (hsound fuel es none hrun)
  · intro hmax fuel es o h
    exact .of_performs hmax h

theorem receive_not_sound : ¬∀ (fuel : ℕ) (es : List Event) (o : Option Int32),
    Performs (xmodemReceive fuel 0xFFFFFFFF) es o → Sound 0xFFFFFFFF es o := by
  intro hsound
  have hmax : 2 ^ 32 - 1024 ≤ (0xFFFFFFFF : UInt32).toNat := by decide
  obtain ⟨fuel, es, hrun, hmem⟩ := receive_overruns hmax
  exact not_sound_of_overrun hmem (hsound fuel es none hrun)

end BekenCam.Xmodem
