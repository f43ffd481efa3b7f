import BekenCam.CommandProgram

/-!
# Receiving a file over XMODEM

The receiver polls with `C` until the first block comes, and then takes block after
block until the sender says it is done. Time is not modelled: a read either brings a
byte or times out. `fuel` bounds how often a loop without a bound of its own turns;
a run that has used it up is still going.
-/
namespace BekenCam.Xmodem

abbrev XMODEM_ERR_TIMEOUT : Int32 := -1
abbrev XMODEM_ERR_CRC : Int32 := -2
abbrev XMODEM_ERR_SEQ : Int32 := -3
abbrev XMODEM_ERR_ABORT : Int32 := -4
abbrev XMODEM_ERR_OVERFLOW : Int32 := -5
abbrev XMODEM_ERR_NAK : Int32 := -6

abbrev XMODEM_SOH : UInt8 := 0x01
abbrev XMODEM_STX : UInt8 := 0x02
abbrev XMODEM_EOT : UInt8 := 0x04
abbrev XMODEM_ACK : UInt8 := 0x06
abbrev XMODEM_NAK : UInt8 := 0x15
abbrev XMODEM_CAN : UInt8 := 0x18
abbrev XMODEM_CCHAR : UInt8 := 0x43

abbrev XMODEM_TIMEOUT_PACKET_MS : ℕ := 3000
abbrev XMODEM_TIMEOUT_BYTE_MS : ℕ := 1000
abbrev XMODEM_MAX_RETRIES : ℕ := 10
abbrev XMODEM_MAX_1K_INIT_TRIES : ℕ := 3

abbrev BLOCK_SIZE_SOH : UInt32 := 128
abbrev BLOCK_SIZE_STX : UInt32 := 1024

/-! ## The checksum -/

def crc16Table : List UInt16 :=
  [0x0000, 0x1021, 0x2042, 0x3063, 0x4084, 0x50a5, 0x60c6, 0x70e7, 0x8108, 0x9129, 0xa14a, 0xb16b,
  0xc18c, 0xd1ad, 0xe1ce, 0xf1ef, 0x1231, 0x0210, 0x3273, 0x2252, 0x52b5, 0x4294, 0x72f7, 0x62d6,
  0x9339, 0x8318, 0xb37b, 0xa35a, 0xd3bd, 0xc39c, 0xf3ff, 0xe3de, 0x2462, 0x3443, 0x0420, 0x1401,
  0x64e6, 0x74c7, 0x44a4, 0x5485, 0xa56a, 0xb54b, 0x8528, 0x9509, 0xe5ee, 0xf5cf, 0xc5ac, 0xd58d,
  0x3653, 0x2672, 0x1611, 0x0630, 0x76d7, 0x66f6, 0x5695, 0x46b4, 0xb75b, 0xa77a, 0x9719, 0x8738,
  0xf7df, 0xe7fe, 0xd79d, 0xc7bc, 0x48c4, 0x58e5, 0x6886, 0x78a7, 0x0840, 0x1861, 0x2802, 0x3823,
  0xc9cc, 0xd9ed, 0xe98e, 0xf9af, 0x8948, 0x9969, 0xa90a, 0xb92b, 0x5af5, 0x4ad4, 0x7ab7, 0x6a96,
  0x1a71, 0x0a50, 0x3a33, 0x2a12, 0xdbfd, 0xcbdc, 0xfbbf, 0xeb9e, 0x9b79, 0x8b58, 0xbb3b, 0xab1a,
  0x6ca6, 0x7c87, 0x4ce4, 0x5cc5, 0x2c22, 0x3c03, 0x0c60, 0x1c41, 0xedae, 0xfd8f, 0xcdec, 0xddcd,
  0xad2a, 0xbd0b, 0x8d68, 0x9d49, 0x7e97, 0x6eb6, 0x5ed5, 0x4ef4, 0x3e13, 0x2e32, 0x1e51, 0x0e70,
  0xff9f, 0xefbe, 0xdfdd, 0xcffc, 0xbf1b, 0xaf3a, 0x9f59, 0x8f78, 0x9188, 0x81a9, 0xb1ca, 0xa1eb,
  0xd10c, 0xc12d, 0xf14e, 0xe16f, 0x1080, 0x00a1, 0x30c2, 0x20e3, 0x5004, 0x4025, 0x7046, 0x6067,
  0x83b9, 0x9398, 0xa3fb, 0xb3da, 0xc33d, 0xd31c, 0xe37f, 0xf35e, 0x02b1, 0x1290, 0x22f3, 0x32d2,
  0x4235, 0x5214, 0x6277, 0x7256, 0xb5ea, 0xa5cb, 0x95a8, 0x8589, 0xf56e, 0xe54f, 0xd52c, 0xc50d,
  0x34e2, 0x24c3, 0x14a0, 0x0481, 0x7466, 0x6447, 0x5424, 0x4405, 0xa7db, 0xb7fa, 0x8799, 0x97b8,
  0xe75f, 0xf77e, 0xc71d, 0xd73c, 0x26d3, 0x36f2, 0x0691, 0x16b0, 0x6657, 0x7676, 0x4615, 0x5634,
  0xd94c, 0xc96d, 0xf90e, 0xe92f, 0x99c8, 0x89e9, 0xb98a, 0xa9ab, 0x5844, 0x4865, 0x7806, 0x6827,
  0x18c0, 0x08e1, 0x3882, 0x28a3, 0xcb7d, 0xdb5c, 0xeb3f, 0xfb1e, 0x8bf9, 0x9bd8, 0xabbb, 0xbb9a,
  0x4a75, 0x5a54, 0x6a37, 0x7a16, 0x0af1, 0x1ad0, 0x2ab3, 0x3a92, 0xfd2e, 0xed0f, 0xdd6c, 0xcd4d,
  0xbdaa, 0xad8b, 0x9de8, 0x8dc9, 0x7c26, 0x6c07, 0x5c64, 0x4c45, 0x3ca2, 0x2c83, 0x1ce0, 0x0cc1,
  0xef1f, 0xff3e, 0xcf5d, 0xdf7c, 0xaf9b, 0xbfba, 0x8fd9, 0x9ff8, 0x6e17, 0x7e36, 0x4e55, 0x5e74,
  0x2e93, 0x3eb2, 0x0ed1, 0x1ef0]

/-- The body of the loop in `crc16`. -/
def crc16Step (crc : UInt16) (b : UInt8) : UInt16 :=
  (crc <<< 8) ^^^ crc16Table.getD (((crc >>> 8) ^^^ b.toUInt16) &&& 0x00FF).toNat 0

def crc16 (buf : List UInt8) : UInt16 := buf.foldl crc16Step 0

/-! ## The console and the buffer -/

inductive XmodemCmd
  | getc (timeoutMs : ℕ)
  | putc (c : UInt8)
  -- `memcpy(buf + off, data, |data|)`
  | memcpy (off : UInt32) (data : List UInt8)

/-- A read answers with the byte, or with nothing when the time is up. -/
@[reducible] def XmodemCmd.Answer : XmodemCmd → Type
  | getc _ => Option UInt8
  | _ => Unit

abbrev XmodemM (α : Type) := Prog XmodemCmd XmodemCmd.Answer α

def xmodemGetc (timeoutMs : ℕ) : XmodemM (Option UInt8) := Prog.command (XmodemCmd.getc timeoutMs)
def xmodemPutc (c : UInt8) : XmodemM Unit := Prog.command (XmodemCmd.putc c)
def memcpy (off : UInt32) (data : List UInt8) : XmodemM Unit :=
  Prog.command (XmodemCmd.memcpy off data)

/-! ## One block -/

def xmodemAbort : XmodemM Unit := do
  xmodemPutc XMODEM_CAN
  xmodemPutc XMODEM_CAN
  xmodemPutc XMODEM_CAN
  xmodemPutc 0x08
  xmodemPutc 0x08
  xmodemPutc 0x08

/-- Whether the line fell silent before the fuel was used up. -/
def xmodemFlush : ℕ → XmodemM Bool
  | 0 => pure false
  | fuel + 1 => do
    match ← xmodemGetc 50 with
    | some _ => xmodemFlush fuel
    | none => pure true

/-- The `len` bytes read to `dst`, unless one of them did not come. -/
def xmodemRecvExact : ℕ → ℕ → XmodemM (Option (List UInt8))
  | 0, _ => pure (some [])
  | len + 1, timeoutMs => do
    match ← xmodemGetc timeoutMs with
    | none => pure none
    | some c =>
      match ← xmodemRecvExact len timeoutMs with
      | none => pure none
      | some rest => pure (some (c :: rest))

/-- What `xmodem_recv_block` leaves in `out_blknum` and `data_buf`, and the size it returns. -/
structure Received where
  blkNum : UInt8
  data : List UInt8
  bsz : UInt32

def blockSize (hdr : UInt8) : UInt32 :=
  if hdr = XMODEM_STX then BLOCK_SIZE_STX else BLOCK_SIZE_SOH

def xmodemRecvBlock (hdr : UInt8) : XmodemM (Except Int32 Received) := do
  let bn ← xmodemGetc XMODEM_TIMEOUT_BYTE_MS
  let bi ← xmodemGetc XMODEM_TIMEOUT_BYTE_MS
  match bn, bi with
  | some bn, some bi =>
    if bn ^^^ bi ≠ 0xFF then
      pure (.error XMODEM_ERR_SEQ)
    else
      match ← xmodemRecvExact (blockSize hdr).toNat XMODEM_TIMEOUT_BYTE_MS with
      | none => pure (.error XMODEM_ERR_TIMEOUT)
      | some data =>
        let ch ← xmodemGetc XMODEM_TIMEOUT_BYTE_MS
        let cl ← xmodemGetc XMODEM_TIMEOUT_BYTE_MS
        match ch, cl with
        | some ch, some cl =>
          if (ch.toUInt16 <<< 8) ||| cl.toUInt16 ≠ crc16 data then
            pure (.error XMODEM_ERR_CRC)
          else
            pure (.ok ⟨bn, data, blockSize hdr⟩)
        | _, _ => pure (.error XMODEM_ERR_TIMEOUT)
  | _, _ => pure (.error XMODEM_ERR_TIMEOUT)

/-! ## The two loops -/

/-- How a turn of a loop ends: with the next turn, with the result, or inside a flush that
the fuel does not finish. -/
inductive Next (σ : Type)
  | again (s : σ)
  | done (result : Int32)
  | running

def isBlock (c : Option UInt8) : Bool := c = some XMODEM_SOH ∨ c = some XMODEM_STX

/-- Flush, answer `NAK`, and give up with `err` at the last retry. -/
def refuse {σ : Type} (fuel nakCount : ℕ) (err : Int32) (again : ℕ → σ) : XmodemM (Next σ) := do
  if ← xmodemFlush fuel then
    xmodemPutc XMODEM_NAK
    if nakCount + 1 ≥ XMODEM_MAX_RETRIES then
      xmodemAbort
      pure (.done err)
    else
      pure (.again (again (nakCount + 1)))
  else
    pure .running

/-- `received`, `expected`, `nak_count` and `can_count` in the second loop. -/
structure Receiver where
  received : UInt32
  expected : UInt8
  nakCount : ℕ
  canCount : ℕ

/-- The two counters of the first loop. -/
structure Opening where
  nakCount : ℕ
  canCount : ℕ

/-- A turn of the first loop; it breaks out with the state the second one starts in. -/
def openingTurn (fuel : ℕ) (maxLen : UInt32) (st : Opening) :
    XmodemM (Next (Opening ⊕ Receiver)) := do
  xmodemPutc XMODEM_CCHAR
  let c ← xmodemGetc XMODEM_TIMEOUT_PACKET_MS
  if isBlock c then
    match ← xmodemRecvBlock (c.getD 0) with
    | .error _ =>
      refuse fuel st.nakCount XMODEM_ERR_NAK fun nak => .inl { st with nakCount := nak }
    | .ok block =>
      if block.blkNum ≠ 1 then
        xmodemAbort
        pure (.done XMODEM_ERR_SEQ)
      else if block.bsz > maxLen then
        xmodemAbort
        pure (.done XMODEM_ERR_OVERFLOW)
      else
        memcpy 0 block.data
        xmodemPutc XMODEM_ACK
        pure (.again (.inr ⟨block.bsz, 2, 0, st.canCount⟩))
  else if c = some XMODEM_CAN then
    if st.canCount + 1 ≥ 2 then
      pure (.done XMODEM_ERR_ABORT)
    else
      pure (.again (.inl { st with canCount := st.canCount + 1 }))
  else
    pure (.again (.inl { st with canCount := 0 }))

def receiverTurn (fuel : ℕ) (maxLen : UInt32) (st : Receiver) : XmodemM (Next Receiver) := do
  let c ← xmodemGetc XMODEM_TIMEOUT_PACKET_MS
  if c = some XMODEM_EOT then
    xmodemPutc XMODEM_ACK
    pure (.done st.received.toInt32)
  else if c = some XMODEM_CAN then
    if st.canCount + 1 ≥ 2 then
      pure (.done XMODEM_ERR_ABORT)
    else
      pure (.again { st with canCount := st.canCount + 1 })
  else if !isBlock c then
    refuse fuel st.nakCount (if c.isNone then XMODEM_ERR_TIMEOUT else XMODEM_ERR_NAK)
      fun nak => { st with nakCount := nak, canCount := 0 }
  else
    match ← xmodemRecvBlock (c.getD 0) with
    | .error err =>
      refuse fuel st.nakCount
        (if err = XMODEM_ERR_TIMEOUT then XMODEM_ERR_TIMEOUT else XMODEM_ERR_NAK)
        fun nak => { st with nakCount := nak, canCount := 0 }
    | .ok block =>
      if block.blkNum = st.expected - 1 then
        xmodemPutc XMODEM_ACK
        pure (.again { st with canCount := 0 })
      else if block.blkNum ≠ st.expected then
        xmodemAbort
        pure (.done XMODEM_ERR_SEQ)
      else if st.received + block.bsz > maxLen then
        xmodemAbort
        pure (.done XMODEM_ERR_OVERFLOW)
      else
        memcpy st.received block.data
        xmodemPutc XMODEM_ACK
        pure (.again ⟨st.received + block.bsz, st.expected + 1, 0, 0⟩)

def receiverLoop (fuel : ℕ) (maxLen : UInt32) : ℕ → Receiver → XmodemM (Option Int32)
  | 0, _ => pure none
  | turns + 1, st => do
    match ← receiverTurn fuel maxLen st with
    | .again st' => receiverLoop fuel maxLen turns st'
    | .done r => pure (some r)
    | .running => pure none

/-- The first loop with some tries left, and the second one behind it. -/
def openingLoop (fuel : ℕ) (maxLen : UInt32) : ℕ → Opening → XmodemM (Option Int32)
  | 0, _ => pure (some XMODEM_ERR_TIMEOUT)
  | tries + 1, st => do
    match ← openingTurn fuel maxLen st with
    | .again (.inl st') => openingLoop fuel maxLen tries st'
    | .again (.inr st') => receiverLoop fuel maxLen fuel st'
    | .done r => pure (some r)
    | .running => pure none

/-- The result, or nothing while the receiver is still running. -/
def xmodemReceive (fuel : ℕ) (maxLen : UInt32) : XmodemM (Option Int32) :=
  openingLoop fuel maxLen (XMODEM_MAX_1K_INIT_TRIES + 10) ⟨0, 0⟩

end BekenCam.Xmodem
