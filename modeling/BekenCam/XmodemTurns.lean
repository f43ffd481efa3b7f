import BekenCam.CrcRegister
import BekenCam.XmodemModel

/-!
# The turns of a transfer

What the receiver did with the line, cut at the reads for a packet header. A turn is
one such read and everything up to the next one. Its block is what a sender that
follows the protocol would have to put on the line to have these bytes read.
-/
namespace BekenCam.Xmodem

open Prog

abbrev Event := Σ c, XmodemCmd.Answer c

abbrev headerRead (c : Option UInt8) : Event := ⟨.getc XMODEM_TIMEOUT_PACKET_MS, c⟩
abbrev byteRead (c : Option UInt8) : Event := ⟨.getc XMODEM_TIMEOUT_BYTE_MS, c⟩
abbrev flushRead (c : Option UInt8) : Event := ⟨.getc 50, c⟩
abbrev said (c : UInt8) : Event := ⟨.putc c, ()⟩
abbrev stored (off : UInt32) (data : List UInt8) : Event := ⟨.memcpy off data, ()⟩

/-! ## Blocks on the line -/

/-- The CRC-16 of XMODEM, bit by bit: the polynomial `x^16 + x^12 + x^5 + 1`. -/
def lineCrc (data : List UInt8) : BitVec 16 :=
  Crc.checksum 0x1021#16 0#16 (data.map UInt8.toBitVec)

theorem crc16Table_eq (i : BitVec 8) :
    (crc16Table.getD i.toNat 0).toBitVec = Crc.shifts 0x1021#16 8 (i.setWidth 16 <<< 8) := by
  have hall : ∀ i : BitVec 8, (crc16Table.getD i.toNat 0).toBitVec =
      Crc.shifts 0x1021#16 8 (i.setWidth 16 <<< 8) := by decide +kernel
  exact hall i

theorem crc16Step_eq (crc : UInt16) (b : UInt8) :
    (crc16Step crc b).toBitVec = Crc.feed 0x1021#16 crc.toBitVec b.toBitVec := by
  have hindex : (((crc >>> 8) ^^^ b.toUInt16) &&& 0x00FF).toNat =
      ((crc.toBitVec >>> 8).setWidth 8 ^^^ b.toBitVec).toNat := by
    have hmask : ∀ n : ℕ, n &&& 255 = n % 256 := fun n => Nat.and_two_pow_sub_one_eq_mod n 8
    have hxor : ∀ m n : ℕ, (m ^^^ n) % 256 = (m % 256) ^^^ (n % 256) := fun m n =>
      Nat.xor_mod_two_pow (n := 8)
    simp [hmask, hxor]
  rw [Crc.feed_eq_table (by decide) crc16Table_eq, ← hindex, crc16Step]
  rfl

theorem crc16_eq (data : List UInt8) : (crc16 data).toBitVec = lineCrc data := by
  have hfold : ∀ crc : UInt16, (data.foldl crc16Step crc).toBitVec =
      Crc.checksum 0x1021#16 crc.toBitVec (data.map UInt8.toBitVec) := by
    induction data with
    | nil => exact fun _ => rfl
    | cons b data ih =>
      intro crc
      rw [List.foldl_cons, ih, crc16Step_eq]
      rfl
  exact hfold 0

/-- The two bytes of a checksum, as they are compared. -/
theorem crc_bytes (ch cl : UInt8) (data : List UInt8) :
    (ch.toUInt16 <<< 8) ||| cl.toUInt16 = crc16 data ↔
      ch = UInt8.ofNat ((lineCrc data).toNat / 256) ∧
        cl = UInt8.ofNat (lineCrc data).toNat := by
  have hlt := (crc16 data).toNat_lt
  have hcl := cl.toNat_lt
  have hch := ch.toNat_lt
  have hor : (ch.toUInt16 <<< 8 ||| cl.toUInt16).toNat = ch.toNat * 256 + cl.toNat := by
    have h := Nat.shiftLeft_add_eq_or_of_lt hcl ch.toNat
    rw [Nat.shiftLeft_eq] at h
    rw [h]
    simp [Nat.shiftLeft_eq, Nat.mod_eq_of_lt (show ch.toNat * 256 < 65536 by omega)]
  rw [← UInt16.toNat_inj, hor, ← crc16_eq, ← UInt8.toNat_inj, ← UInt8.toNat_inj]
  simp only [UInt8.toNat_ofNat', UInt16.toNat_toBitVec]
  omega

/-- A block as the protocol has it, in either of its sizes. -/
structure Block where
  num : UInt8
  data : List UInt8
  hsize : data.length = 128 ∨ data.length = 1024
  deriving DecidableEq

namespace Block

def header (b : Block) : UInt8 := if b.data.length = 1024 then XMODEM_STX else XMODEM_SOH

def size (b : Block) : UInt32 := UInt32.ofNat b.data.length

/-- The bytes behind the header: the number and its complement, the data, the checksum. -/
def wire (b : Block) : List UInt8 :=
  b.num :: ~~~b.num :: b.data ++
    [UInt8.ofNat ((lineCrc b.data).toNat / 256), UInt8.ofNat (lineCrc b.data).toNat]

theorem length_le (b : Block) : b.data.length ≤ 1024 := by
  have h := b.hsize
  omega

theorem toNat_size (b : Block) : b.size.toNat = b.data.length := by
  have h := b.length_le
  rw [size, UInt32.toNat_ofNat_of_lt' (by unfold UInt32.size; omega)]

theorem isBlock_header (b : Block) : isBlock (some b.header) = true := by
  unfold header
  split <;> rfl

theorem size_eq (b : Block) : b.size = blockSize b.header := by
  unfold size header
  rcases b.hsize with h | h <;> rw [h] <;> decide

end Block

/-- The block that stands in the bytes read behind a header, if they are an intact one. -/
def blockIn (header : Option UInt8) (answers : List (Option UInt8)) : Option Block :=
  let data := ((answers.drop 2).dropLast.dropLast).filterMap id
  if hsize : data.length = 128 ∨ data.length = 1024 then
    let b : Block := ⟨(answers.headD none).getD 0, data, hsize⟩
    if header = some b.header ∧ answers = b.wire.map some then some b else none
  else
    none

theorem blockIn_eq_some {header : Option UInt8} {answers : List (Option UInt8)} {b : Block} :
    blockIn header answers = some b ↔ header = some b.header ∧ answers = b.wire.map some := by
  constructor
  · intro h
    unfold blockIn at h
    dsimp only at h
    split at h
    · split at h
      · rename_i hwire
        obtain rfl := Option.some.inj h
        exact hwire
      · cases h
    · cases h
  · rintro ⟨rfl, rfl⟩
    have hdata : ((b.wire.map some).drop 2).dropLast.dropLast.filterMap id = b.data := by
      simp [Block.wire, List.dropLast_append_of_ne_nil, List.filterMap_map]
    unfold blockIn
    dsimp only
    have hnum : (((b.wire.map some).headD none).getD 0) = b.num := rfl
    simp only [hdata, hnum, b.hsize, dif_pos, and_self, if_true]

/-! ## Cutting a trace -/

/-- One read for a header, with what happens up to the next one. -/
structure Turn where
  header : Option UInt8
  events : List Event

/-- Put an event in front of the turns behind it. Polls belong to no turn. -/
def gather : Event → List Event × List Turn → List Event × List Turn
  | ⟨.getc timeoutMs, c⟩, acc =>
    if timeoutMs = XMODEM_TIMEOUT_PACKET_MS then ([], ⟨c, acc.1⟩ :: acc.2)
    else (⟨.getc timeoutMs, c⟩ :: acc.1, acc.2)
  | ⟨.putc c, u⟩, acc => if c = XMODEM_CCHAR then acc else (⟨.putc c, u⟩ :: acc.1, acc.2)
  | e, acc => (e :: acc.1, acc.2)

def cut (es : List Event) : List Event × List Turn := es.foldr gather ([], [])

def turns (es : List Event) : List Turn := (cut es).2

def byteAnswer? : Event → Option (Option UInt8)
  | ⟨.getc timeoutMs, c⟩ => if timeoutMs = XMODEM_TIMEOUT_BYTE_MS then some c else none
  | _ => none

def store? : Event → Option (UInt32 × List UInt8)
  | ⟨.memcpy off data, _⟩ => some (off, data)
  | _ => none

def reply? : Event → Option UInt8
  | ⟨.putc c, _⟩ => some c
  | _ => none

/-- A read, with its time limit and what came. -/
def read? : Event → Option (ℕ × Option UInt8)
  | ⟨.getc timeoutMs, c⟩ => some (timeoutMs, c)
  | _ => none

/-- What was copied into the buffer, in order. -/
def stores (es : List Event) : List (UInt32 × List UInt8) := es.filterMap store?

def reads (es : List Event) : List (ℕ × Option UInt8) := es.filterMap read?

namespace Turn

/-- The intact block a turn read, if it read one. -/
def block (t : Turn) : Option Block := blockIn t.header (t.events.filterMap byteAnswer?)

def stores (t : Turn) : List (UInt32 × List UInt8) := Xmodem.stores t.events

def replies (t : Turn) : List UInt8 := t.events.filterMap reply?

end Turn

@[simp] theorem cut_nil : cut [] = ([], []) := rfl

theorem cut_cons (e : Event) (es : List Event) : cut (e :: es) = gather e (cut es) := rfl

theorem turns_header (c : Option UInt8) (es : List Event) :
    cut (headerRead c :: es) = ([], ⟨c, (cut es).1⟩ :: turns es) := by
  simp [cut_cons, gather, turns]

theorem turns_poll (es : List Event) : cut (said XMODEM_CCHAR :: es) = cut es := by
  simp [cut_cons, gather]

/-- An event that stays in its turn. -/
def Inner (e : Event) : Prop := ∀ acc, gather e acc = (e :: acc.1, acc.2)

theorem inner_byteRead (c : Option UInt8) : Inner (byteRead c) := fun _ => rfl

theorem inner_flushRead (c : Option UInt8) : Inner (flushRead c) := fun _ => rfl

theorem inner_stored (off : UInt32) (data : List UInt8) : Inner (stored off data) := fun _ => rfl

theorem inner_said {c : UInt8} (h : c ≠ XMODEM_CCHAR) : Inner (said c) := fun _ => if_neg h

theorem cut_inner {own : List Event} (h : ∀ e ∈ own, Inner e) (es : List Event) :
    cut (own ++ es) = (own ++ (cut es).1, turns es) := by
  induction own with
  | nil => rfl
  | cons e own ih =>
    rw [List.cons_append, cut_cons, ih fun f hf => h f (List.mem_cons_of_mem _ hf),
      h e List.mem_cons_self]
    rfl

/-- A trace whose first read is one for a header. -/
def Opens (es : List Event) : Prop := (cut es).1 = []

/-- A turn in front of a trace. -/
theorem cut_turn {own es : List Event} (c : Option UInt8) (hown : ∀ e ∈ own, Inner e)
    (hes : Opens es) : cut (headerRead c :: own ++ es) = ([], ⟨c, own⟩ :: turns es) := by
  rw [List.cons_append, turns_header, turns, cut_inner hown, show (cut es).1 = [] from hes,
    List.append_nil]

/-- The turns leave out nothing but the polls. -/
theorem filterMap_cut {β : Type} (f : Event → Option β) (hpoll : f (said XMODEM_CCHAR) = none)
    (es : List Event) : es.filterMap f = (cut es).1.filterMap f ++
      (cut es).2.flatMap fun t => (headerRead t.header :: t.events).filterMap f := by
  have hcons : ∀ (e : Event) (l : List Event), (e :: l).filterMap f =
      [e].filterMap f ++ l.filterMap f := fun e l => by rw [← List.filterMap_append]; rfl
  induction es with
  | nil => rfl
  | cons e es ih =>
    rw [cut_cons, hcons e es, ih]
    obtain ⟨c, r⟩ := e
    cases c with
    | getc timeoutMs =>
      rw [gather]
      split_ifs with h
      · subst h
        show _ = (headerRead r :: (cut es).1).filterMap f ++ _
        rw [hcons (headerRead r) (cut es).1, List.append_assoc]
        rfl
      · rw [hcons ⟨.getc timeoutMs, r⟩ (cut es).1, List.append_assoc]
    | putc c =>
      rw [gather]
      split_ifs with h
      · subst h
        have hnone : [(⟨.putc XMODEM_CCHAR, r⟩ : Event)].filterMap f = [] := by simp [hpoll]
        rw [hnone, List.nil_append]
      · rw [hcons ⟨.putc c, r⟩ (cut es).1, List.append_assoc]
    | memcpy off data =>
      show _ = (⟨.memcpy off data, r⟩ :: (cut es).1).filterMap f ++ _
      rw [hcons ⟨.memcpy off data, r⟩ (cut es).1, List.append_assoc]
      rfl

theorem stores_eq_turns {es : List Event} (hes : Opens es) :
    stores es = (turns es).flatMap Turn.stores := by
  have h := filterMap_cut store? rfl es
  rw [show (cut es).1 = [] from hes] at h
  exact h

theorem reads_eq_turns {es : List Event} (hes : Opens es) : reads es =
    (turns es).flatMap fun t => (XMODEM_TIMEOUT_PACKET_MS, t.header) :: reads t.events := by
  have h := filterMap_cut read? rfl es
  rw [show (cut es).1 = [] from hes] at h
  exact h

end BekenCam.Xmodem
