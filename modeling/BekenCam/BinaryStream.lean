import BekenCam.FlashCommands

/-!
# Binary reads over the console

`flash_read` and `memory_read` send an area as bytes and a checksum, once the other side has said
that it is listening. The offset is a word.
-/
namespace BekenCam.BinaryStream

open Crc32 ShellParser FlashShell

def ackByte : UInt8 := 0x06
def ackTimeoutMs : ℕ := 5000
def pollInterval : ℕ := 10

/-- The loop of `has_ack` over what `getchar` gives. There is no result while it has not ended. -/
def ackLoop : ℕ → List (Option UInt8) → Option Bool
  | 0, _ => some false
  | _ + 1, [] => none
  | countdown + 1, none :: polls => ackLoop countdown polls
  | _ + 1, some c :: polls =>
    if c = ackByte then some true else ackLoop (ackTimeoutMs / pollInterval) polls

def hasAck (polls : List (Option UInt8)) : Option Bool := ackLoop (ackTimeoutMs / pollInterval) polls

/-- `binary_read_fn`. -/
abbrev Read := UInt32 → ℕ → List UInt8

structure Sending where
  off : UInt32
  crc : UInt32
  sent : List UInt8

def sendRound (read : Read) (addr size : UInt32) (s : Sending) : Sending :=
  let n := size - s.off
  let n := if n > chunk then chunk else n
  let buf := read (addr + s.off) n.toNat
  ⟨s.off + chunk, crc32Update s.crc buf, s.sent ++ buf⟩

/-- The checksum, its lowest byte first. -/
def crcBytes (crc : UInt32) : List UInt8 :=
  [crc.toUInt8, (crc >>> 8).toUInt8, (crc >>> 16).toUInt8, (crc >>> 24).toUInt8]

def send (fuel : ℕ) (read : Read) (addr size : UInt32) : Option (List UInt8) :=
  (whileLoop (fun s => s.off < size) (sendRound read addr size) fuel ⟨0, crc32Init, []⟩).map fun s =>
    s.sent ++ crcBytes (crc32Final s.crc)

inductive Outcome
  | usage
  | invalidSize
  | aborted
  | sent (bytes : List UInt8)
  deriving DecidableEq

/-- What comes after the hint, which the transfer and an abort print. -/
def binaryStreamCommand (fuel : ℕ) (argv : List (List UInt8)) (read : Read)
    (polls : List (Option UInt8)) : Option Outcome :=
  if argv.length ≠ 3 then some .usage
  else
    let addr := number argv 1
    let size := number argv 2
    if size = 0 then some .invalidSize
    else
      match hasAck polls with
      | none => none
      | some false => some .aborted
      | some true => (send fuel read addr size).map .sent

/-- `command_flash_read_binary`. -/
def flashReader (c : Nor.Chip) : Read := fun addr count => Flash.flashRead c addr.toNat count

/-- `command_memory_read_binary`. -/
def memoryCopy (mem : UInt32 → UInt8) : Read := fun addr count =>
  (List.range count).map fun i => mem (addr + .ofNat i)

/-! ## Waiting for the acknowledgement -/

/-- There is one before the line was silent for the whole time. -/
def Acknowledged (polls : List (Option UInt8)) : Prop :=
  ∃ before after, polls = before ++ some ackByte :: after ∧ some ackByte ∉ before ∧
    ¬ List.replicate (ackTimeoutMs / pollInterval) none <:+: before

theorem isPrefix_left {α : Type*} {l a b : List α} {x : α} (hx : x ∉ l) (h : l <+: a ++ x :: b) :
    l <+: a := by
  induction a generalizing l with
  | nil =>
    cases l with
    | nil => exact List.nil_prefix
    | cons y l =>
      obtain ⟨rfl, -⟩ := List.cons_prefix_cons.mp h
      exact absurd List.mem_cons_self hx
  | cons y a ih =>
    cases l with
    | nil => exact List.nil_prefix
    | cons z l =>
      obtain ⟨rfl, hrest⟩ := List.cons_prefix_cons.mp h
      exact List.cons_prefix_cons.mpr ⟨rfl, ih (fun hl => hx (List.mem_cons_of_mem _ hl)) hrest⟩

/-- What does not contain `x` lies on one side of it. -/
theorem infix_around {α : Type*} {l a b : List α} {x : α} (hx : x ∉ l) :
    l <:+: a ++ x :: b ↔ l <:+: a ∨ l <:+: b := by
  constructor
  · intro h
    induction a with
    | nil =>
      rcases List.infix_cons_iff.mp h with hprefix | hrest
      · exact .inl (isPrefix_left hx   hprefix).isInfix
      · exact .inr hrest
    | cons y a ih =>
      rcases List.infix_cons_iff.mp h with hprefix | hrest
      · exact .inl (isPrefix_left hx hprefix).isInfix
      · exact (ih hrest).imp_left List.infix_cons
  · rintro (h | h)
    · exact List.infix_append_of_infix_left h
    · exact List.infix_append_of_infix_right (List.infix_cons h)

/-- With `silent` polls without an answer behind it. -/
theorem ackLoop_eq_true {limit countdown silent : ℕ} (polls : List (Option UInt8))
    (hlimit : limit = ackTimeoutMs / pollInterval) (hsum : countdown + silent = limit) :
    ackLoop countdown polls = some true ↔ ∃ before after, polls = before ++ some ackByte :: after ∧
      some ackByte ∉ before ∧
      ¬ List.replicate limit none <:+: List.replicate silent none ++ before := by
  have hpos : 0 < limit := by rw [hlimit]; decide
  have hclean (c : UInt8) : some c ∉ List.replicate limit (none : Option UInt8) := by simp
  induction polls generalizing countdown silent with
  | nil =>
    cases countdown with
    | zero => simp [ackLoop]
    | succ countdown => simp [ackLoop]
  | cons poll polls ih =>
    cases countdown with
    | zero =>
      obtain rfl : silent = limit := by omega
      simp only [ackLoop]
      refine ⟨nofun, ?_⟩
      rintro ⟨before, after, -, -, hnot⟩
      exact absurd List.infix_append_left hnot
    | succ countdown =>
      cases poll with
      | none =>
        rw [ackLoop]
        refine (@ih countdown (silent + 1) (by omega)).trans ?_
        constructor
        · rintro ⟨before, after, rfl, hmem, hnot⟩
          refine ⟨none :: before, after, rfl, by simpa using hmem, ?_⟩
          rwa [List.append_cons, ← List.replicate_succ']
        · rintro ⟨before, after, hpolls, hmem, hnot⟩
          cases before with
          | nil => simp at hpolls
          | cons first before =>
            obtain ⟨rfl, rfl⟩ := List.cons.inj hpolls
            refine ⟨before, after, rfl, fun h => hmem (List.mem_cons_of_mem _ h), ?_⟩
            rwa [List.append_cons, ← List.replicate_succ'] at hnot
      | some c =>
        rw [ackLoop, ← hlimit]
        split_ifs with hc
        · subst hc
          refine ⟨fun _ => ⟨[], polls, rfl, List.not_mem_nil, ?_⟩, fun _ => rfl⟩
          intro hin
          have := hin.length_le
          simp only [List.append_nil, List.length_replicate] at this
          omega
        · have hsplit (before : List (Option UInt8)) : List.replicate limit none <:+:
              List.replicate silent none ++ some c :: before ↔
              List.replicate limit none <:+: before := by
            rw [infix_around (hclean c)]
            refine ⟨fun h => h.resolve_left fun hin => ?_, .inr⟩
            have := hin.length_le
            simp only [List.length_replicate] at this
            omega
          refine (@ih limit 0 (by omega)).trans ?_
          simp only [List.replicate_zero, List.nil_append]
          constructor
          · rintro ⟨before, after, rfl, hmem, hnot⟩
            refine ⟨some c :: before, after, rfl, ?_, by rwa [hsplit]⟩
            simpa [hmem] using Ne.symm hc
          · rintro ⟨before, after, hpolls, hmem, hnot⟩
            cases before with
            | nil => exact absurd (Option.some.inj (List.cons.inj hpolls).1) hc
            | cons first before =>
              obtain ⟨rfl, rfl⟩ := List.cons.inj hpolls
              exact ⟨before, after, rfl, fun h => hmem (List.mem_cons_of_mem _ h), by
                rwa [hsplit] at hnot⟩

theorem hasAck_eq_true {polls : List (Option UInt8)} : hasAck polls = some true ↔
    Acknowledged polls := by
  simpa [Acknowledged, hasAck] using ackLoop_eq_true polls rfl (Nat.add_zero _)

/-! ## The transfer -/

/-- The bytes of the area; the addresses wrap. -/
def area (mem : UInt32 → UInt8) (addr : UInt32) (n : ℕ) : List UInt8 :=
  (List.range n).map fun i => mem (addr + .ofNat i)

theorem area_add (mem : UInt32 → UInt8) (addr : UInt32) (n m : ℕ) :
    area mem addr (n + m) = area mem addr n ++ area mem (addr + .ofNat n) m := by
  simp [area, List.range_add, Function.comp_def, UInt32.ofNat_add, UInt32.add_assoc]

section Send

variable {read : Read} {mem : UInt32 → UInt8} {addr size : UInt32}

/-- What was sent is the start of the area, and its checksum is kept. -/
structure Sent (mem : UInt32 → UInt8) (addr size : UInt32) (s : Sending) : Prop where
  aligned : s.off.toNat % 256 = 0
  bound : s.off.toNat ≤ 2 ^ 32 - 256
  sent : s.sent = area mem addr (min s.off.toNat size.toNat)
  crc : s.crc = crc32Update crc32Init s.sent

theorem toNat_off_sendRound (s : Sending) :
    (sendRound read addr size s).off.toNat = (s.off.toNat + 256) % 2 ^ 32 := by
  rw [sendRound, UInt32.toNat_add]
  rfl

theorem toNat_piece {size off : UInt32} (h : off < size) :
    (if size - off > chunk then chunk else size - off).toNat = min (size.toNat - off.toNat) 256 := by
  have hle : off ≤ size := UInt32.le_of_lt h
  have hchunk : chunk.toNat = 256 := rfl
  split_ifs with hmore
  · rw [gt_iff_lt, UInt32.lt_iff_toNat_lt, UInt32.toNat_sub_of_le _ _ hle] at hmore
    omega
  · rw [gt_iff_lt, UInt32.lt_iff_toNat_lt, UInt32.toNat_sub_of_le _ _ hle] at hmore
    rw [UInt32.toNat_sub_of_le _ _ hle]
    omega

theorem Sent.round {s : Sending} (hread : ∀ a n, read a n = area mem a n)
    (hsize : size.toNat ≤ 2 ^ 32 - 256) (h : Sent mem addr size s) (hguard : s.off < size) :
    Sent mem addr size (sendRound read addr size s) := by
  have hlt := UInt32.lt_iff_toNat_lt.mp hguard
  have haligned := h.aligned
  have hoff := @toNat_off_sendRound read addr size s
  rw [Nat.mod_eq_of_lt (by omega)] at hoff
  have hbuf : (sendRound read addr size s).sent =
      area mem addr (min (sendRound read addr size s).off.toNat size.toNat) := by
    have hsum : min (s.off.toNat + 256) size.toNat =
        s.off.toNat + min (size.toNat - s.off.toNat) 256 := by omega
    rw [hoff, hsum, area_add]
    simp only [sendRound, hread, toNat_piece hguard, h.sent, Nat.min_eq_left hlt.le,
      UInt32.ofNat_toNat]
  refine ⟨by omega, by omega, hbuf, ?_⟩
  simp only [sendRound, h.crc, crc32Update, List.foldl_append]

/-- Up to the last multiple of the chunk, the whole area is sent and its checksum. -/
theorem send_total (hread : ∀ a n, read a n = area mem a n) (hsize : size.toNat ≤ 2 ^ 32 - 256) :
    ∃ fuel, send fuel read addr size =
      some (area mem addr size.toNat ++ crcBytes (crc32 (area mem addr size.toNat))) := by
  have hstart : Sent mem addr size ⟨0, crc32Init, []⟩ :=
    ⟨rfl, by decide, by simp [area], rfl⟩
  obtain ⟨fuel, r, hloop, hr, hdone⟩ := whileLoop_total (fun s => s.off < size)
    (sendRound read addr size) (Sent mem addr size) (fun s => 2 ^ 32 - s.off.toNat) hstart
    (fun s hs hguard => by
      have hguard : s.off < size := by simpa using hguard
      have hlt := UInt32.lt_iff_toNat_lt.mp hguard
      have haligned := hs.aligned
      refine ⟨hs.round hread hsize hguard, ?_⟩
      rw [toNat_off_sendRound, Nat.mod_eq_of_lt (by omega)]
      omega)
  have hge : size.toNat ≤ r.off.toNat := by
    have hnot : ¬ r.off < size := by simpa using hdone
    simpa [UInt32.lt_iff_toNat_lt] using hnot
  refine ⟨fuel, ?_⟩
  rw [send, hloop, Option.map_some, hr.crc, hr.sent, Nat.min_eq_right hge]
  rfl

theorem send_unique {fuel more : ℕ} {bytes bytes' : List UInt8}
    (h : send fuel read addr size = some bytes) (h' : send more read addr size = some bytes') :
    bytes = bytes' := by
  obtain ⟨r, hloop, rfl⟩ := Option.map_eq_some_iff.mp h
  obtain ⟨r', hloop', rfl⟩ := Option.map_eq_some_iff.mp h'
  have hbig := whileLoop_of_le (Nat.le_max_left fuel more) hloop
  have hbig' := whileLoop_of_le (Nat.le_max_right fuel more) hloop'
  obtain rfl := Option.some.inj (hbig.symm.trans hbig')
  rfl

/-- Above it, the offset never gets there. -/
theorem send_diverges (hsize : 2 ^ 32 - 256 < size.toNat) (fuel : ℕ) :
    send fuel read addr size = none := by
  have hloop := whileLoop_diverges (fun s => s.off < size) (sendRound read addr size)
    (fun s : Sending => s.off.toNat % 256 = 0) (s := ⟨0, crc32Init, []⟩) rfl
    (fun s hs => by
      have hlt := s.off.toNat_lt
      rw [toNat_off_sendRound, decide_eq_true_iff, UInt32.lt_iff_toNat_lt]
      omega) fuel
  rw [send, hloop]
  rfl

end Send

/-! ## The commands -/

/-- The address bits that the bus has, block by block. -/
theorem flashRead_bus (c : Nor.Chip) (addr count : ℕ) : Flash.flashRead c addr count =
    (List.range count).map fun i => c.cells ((addr + i) % 2 ^ 24) := by
  induction count using Nat.strong_induction_on generalizing addr with
  | _ count ih =>
    unfold Flash.flashRead
    by_cases hzero : count = 0
    · rw [if_pos hzero, hzero]
      rfl
    rw [if_neg hzero]
    dsimp only [Flash.flashReadBlockSize]
    obtain ⟨n, hn⟩ : ∃ n, n = min (32 - (addr - addr / 32 * 32)) count := ⟨_, rfl⟩
    have hle : n ≤ count := by omega
    have hblock : Flash.bus (addr / 32 * 32) + (addr - addr / 32 * 32) = addr % 2 ^ 24 := by
      unfold Flash.bus
      omega
    have hinside : ∀ i < n, addr % 2 ^ 24 + i = (addr + i) % 2 ^ 24 := by
      intro i hi
      omega
    rw [← hn, ih (count - n) (by omega) (addr + n), Nor.Chip.slice_read c _ (by omega), hblock,
      Nor.Chip.read]
    conv_rhs => rw [← Nat.add_sub_cancel' hle, List.range_add, List.map_append, List.map_map]
    congr 1
    · refine List.map_congr_left fun i hi => ?_
      rw [hinside i (List.mem_range.mp hi)]
    · refine List.map_congr_left fun i _ => ?_
      simp [Nat.add_assoc]

theorem flashReader_eq (c : Nor.Chip) (a : UInt32) (n : ℕ) :
    flashReader c a n = area (fun b => c.cells (b.toNat % 2 ^ 24)) a n := by
  rw [flashReader, flashRead_bus, area]
  refine List.map_congr_left fun i _ => ?_
  congr 1
  rw [UInt32.toNat_add, UInt32.toNat_ofNat']
  omega

/-- A complaint, an abort, or the area and its checksum. -/
def Answers (mem : UInt32 → UInt8) (argv : List (List UInt8)) (polls : List (Option UInt8))
    (outcome : Outcome) : Prop :=
  if argv.length ≠ 3 then outcome = .usage
  else if number argv 2 = 0 then outcome = .invalidSize
  else (hasAck polls = some false ∧ outcome = .aborted) ∨
    (Acknowledged polls ∧ (number argv 2).toNat ≤ 2 ^ 32 - 256 ∧
      outcome = .sent (area mem (number argv 1) (number argv 2).toNat ++
        crcBytes (crc32 (area mem (number argv 1) (number argv 2).toNat))))

theorem binaryStreamCommand_spec {read : Read} {mem : UInt32 → UInt8}
    (hread : ∀ a n, read a n = area mem a n) (argv : List (List UInt8))
    (polls : List (Option UInt8)) (outcome : Outcome) :
    (∃ fuel, binaryStreamCommand fuel argv read polls = some outcome) ↔
      Answers mem argv polls outcome := by
  unfold binaryStreamCommand Answers
  split_ifs with hargc hzero
  · exact ⟨fun ⟨_, h⟩ => (Option.some.inj h).symm, fun h => ⟨0, by rw [h]⟩⟩
  · simp only [if_pos hzero]
    exact ⟨fun ⟨_, h⟩ => (Option.some.inj h).symm, fun h => ⟨0, by rw [h]⟩⟩
  simp only [if_neg hzero, ← hasAck_eq_true]
  cases hack : hasAck polls with
  | none => exact ⟨fun ⟨_, h⟩ => (nomatch h), by simp⟩
  | some heard =>
    cases heard with
    | false =>
      refine ⟨fun ⟨_, h⟩ => .inl ⟨rfl, (Option.some.inj h).symm⟩, ?_⟩
      rintro (⟨-, rfl⟩ | ⟨h, -⟩)
      · exact ⟨0, rfl⟩
      · cases h
    | true =>
      simp only [Option.some.injEq, Bool.true_eq_false, false_and, true_and, false_or,
        Option.map_eq_some_iff]
      constructor
      · rintro ⟨fuel, bytes, hsend, rfl⟩
        by_cases hsize : (number argv 2).toNat ≤ 2 ^ 32 - 256
        · obtain ⟨more, htotal⟩ := @send_total read mem (number argv 1) _ hread hsize
          exact ⟨hsize, congrArg _ (send_unique hsend htotal)⟩
        · rw [send_diverges (by omega)] at hsend
          cases hsend
      · rintro ⟨hsize, rfl⟩
        obtain ⟨fuel, htotal⟩ := @send_total read mem (number argv 1) _ hread hsize
        exact ⟨fuel, _, htotal, rfl⟩

/-- For any arguments and any line, `flash_read` and `memory_read` end as said, and only so: they do
not end when the size is above the last multiple of the chunk. -/
theorem binaryReads_spec (d : FlashShell.Device) (argv : List (List UInt8))
    (polls : List (Option UInt8)) (outcome : Outcome) :
    ((∃ fuel, binaryStreamCommand fuel argv (flashReader d.chip) polls = some outcome) ↔
      Answers (fun a => d.chip.cells (a.toNat % 2 ^ 24)) argv polls outcome) ∧
    ((∃ fuel, binaryStreamCommand fuel argv (memoryCopy d.ram) polls = some outcome) ↔
      Answers d.ram argv polls outcome) :=
  ⟨binaryStreamCommand_spec (flashReader_eq d.chip) argv polls outcome,
    binaryStreamCommand_spec (fun _ _ => rfl) argv polls outcome⟩

end BekenCam.BinaryStream
