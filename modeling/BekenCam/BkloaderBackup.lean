import BekenCam.BinaryStream
import BekenCam.BkloaderModel
import BekenCam.ShellModel

/-!
# Reading over the serial line

`bkloader backup` and `bkloader memory`: the host writes a command line, acknowledges, and takes the
bytes that come. Echoes and prompts are left out, and so are the ways the line can lose bytes.
-/
namespace BekenCam.Bkloader

open BinaryStream Console Crc32 ShellParser
open Http (ascii)

/-! ## The command line -/

def hexDigit (v : ℕ) : UInt8 := if v < 10 then 0x30 + .ofNat v else 0x61 + .ofNat (v - 10)

/-- The values of the digits, the highest first. -/
def digitsOf (base n : ℕ) : List ℕ := (Nat.digits base n).reverse

/-- The format `08x`. -/
def hex08 (n : ℕ) : List UInt8 :=
  List.replicate (8 - (digitsOf 16 n).length) 0x30 ++ (digitsOf 16 n).map hexDigit

def commandText (command : List UInt8) (addr size : ℕ) : List UInt8 :=
  command ++ ascii " 0x" ++ hex08 addr ++ ascii " " ++ decimal size

/-! ## The two sides -/

/-- What the device sends once it was acknowledged. -/
def deviceSends (fuel : ℕ) (d : FlashShell.Device) (text : List UInt8)
    (polls : List (Option UInt8)) : Option (List UInt8) :=
  let argv := splitArgs text
  let outcome :=
    if argv.head? = some (ascii "flash_read") then
      binaryStreamCommand fuel argv (flashReader d.chip) polls
    else if argv.head? = some (ascii "memory_read") then
      binaryStreamCommand fuel argv (memoryCopy d.ram) polls
    else none
  match outcome with
  | some (.sent bytes) => some bytes
  | _ => none

/-- `int.from_bytes` of four bytes, the lowest first. -/
def fromBytes (l : List UInt8) : UInt32 :=
  l.foldr (fun b n => n * 256 + b.toUInt32) 0

/-- There is no result when the host gives up. -/
def stepReadBinary (fuel : ℕ) (d : FlashShell.Device) (command : List UInt8) (addr size : ℕ)
    (polls : List (Option UInt8)) : Option (List UInt8 × UInt32) :=
  match deviceSends fuel d (commandText command addr size) polls with
  | none => none
  | some sent =>
    let raw := sent.take (size + 4)
    if raw.length < size + 4 then none else some (raw.take size, fromBytes (slice raw size 4))

/-- What is saved, and whether its checksum is the device's. -/
def saveReadData (r : List UInt8 × UInt32) : List UInt8 × Bool := (r.1, r.2 = crc32 r.1)

def modeBackup (fuel : ℕ) (d : FlashShell.Device) (seg : Segment) (polls : List (Option UInt8)) :
    Option (List UInt8 × Bool) :=
  (stepReadBinary fuel d (ascii "flash_read") seg.addr seg.size polls).map saveReadData

def modeMemory (fuel : ℕ) (d : FlashShell.Device) (addr size : ℕ) (polls : List (Option UInt8)) :
    Option (List UInt8 × Bool) :=
  (stepReadBinary fuel d (ascii "memory_read") addr size polls).map saveReadData

/-! ## The numbers of the command line -/

theorem hexDigit_value {v : ℕ} (hv : v < 16) : digitValue 16 (hexDigit v) = some v := by
  interval_cases v <;> rfl

theorem decimalDigit_value {v : ℕ} (hv : v < 10) :
    digitValue 10 (0x30 + UInt8.ofNat v) = some v := by
  interval_cases v <;> rfl

theorem numeral_hex08 (n : ℕ) : Numeral 16 (hex08 n) n := by
  refine ⟨List.replicate (8 - (digitsOf 16 n).length) 0 ++ digitsOf 16 n, ?_, ?_⟩
  · rw [hex08, List.map_append, List.map_append, List.map_replicate, List.map_replicate, List.map_map]
    congr 1
    refine List.map_congr_left fun v hv => ?_
    exact hexDigit_value (Nat.digits_lt_base (by decide) (List.mem_reverse.mp hv))
  · rw [List.reverse_append, List.reverse_replicate, digitsOf, List.reverse_reverse,
      Nat.ofDigits_append_replicate_zero, Nat.ofDigits_digits]

theorem numeral_decimal (n : ℕ) : Numeral 10 (decimal n) n := by
  unfold decimal
  split_ifs with hzero
  · exact ⟨[0], rfl, by simp [hzero]⟩
  · refine ⟨(Nat.digits 10 n).reverse, ?_, by rw [List.reverse_reverse, Nat.ofDigits_digits]⟩
    rw [List.map_map]
    refine List.map_congr_left fun v hv => ?_
    exact decimalDigit_value (Nat.digits_lt_base (by decide) (List.mem_reverse.mp hv))

theorem not_space_of_digit {base : ℕ} {c : UInt8} (h : (digitValue base c).isSome) :
    isspace c = false ∧ c ≠ Console.blank ∧ c ≠ quote ∧ c ≠ 0 ∧ c ≠ 0x2D := by
  have hnibble : (hexNibble c).isSome := by
    unfold digitValue at h
    cases hc : hexNibble c with
    | none => simp [hc] at h
    | some v => rfl
  unfold hexNibble at hnibble
  simp only [isspace, Console.blank, quote, UInt8.le_iff_toNat_le, ← UInt8.toNat_inj, ne_eq,
    UInt8.reduceToNat, decide_eq_false_iff_not] at hnibble ⊢
  split_ifs at hnibble with h1 h2 h3
  · omega
  · omega
  · omega
  · cases hnibble

theorem number_of_literal {w : List UInt8} (hw : ∀ c ∈ w, isspace c = false)
    (hsign : ¬MisplacedSign w) {n : ℕ} (hn : Literal w n) :
    (okOr (takeInt w) 0).toUInt32 = .ofNat n := by
  have hword : word w = w := by
    have hskip : w.dropWhile isspace = w := by
      cases w with
      | nil => rfl
      | cons c w => exact List.dropWhile_cons_of_neg (by simp [hw c List.mem_cons_self])
    rw [word, hskip, text]
    exact List.takeWhile_eq_self_iff.mpr fun c hc => by simp [hw c hc]
  have htake : takeInt w = .ok (Int32.ofInt n) := by
    rw [takeInt_eq_ok, hword]
    exact (parseIntLiteral_literal hw hsign).mpr ⟨n, hn, rfl⟩
  rw [htake]
  rfl

/-! ## The line is split again -/

/-- A word that needs no quotes. -/
structure Plain (w : List UInt8) : Prop where
  nonempty : w ≠ []
  ended : 0 ∉ w
  blank : Console.blank ∉ w
  quote : Console.quote ∉ w

theorem Plain.writable {w : List UInt8} (h : Plain w) : Writable w :=
  ⟨h.ended, fun hb => absurd hb h.blank, fun hq => h.quote (List.mem_of_mem_head? hq)⟩

theorem Plain.writeArg {w : List UInt8} (h : Plain w) : writeArg w = w := by
  unfold Console.writeArg
  rw [if_neg]
  rw [needsQuotes_iff, not_or]
  exact ⟨h.nonempty, h.blank⟩

/-- Words with a blank between them. -/
theorem splitArgs_plain {argv : List (List UInt8)} (h : ∀ w ∈ argv, Plain w)
    (hroom : argv.length ≤ 31) : splitArgs ([Console.blank].intercalate argv) = argv := by
  have hwords : argv.map Console.writeArg = argv :=
    (List.map_congr_left fun w hw => (h w hw).writeArg).trans (List.map_id argv)
  have hjoin : joinArgs argv = [Console.blank].intercalate argv := by rw [joinArgs, hwords]
  rw [← hjoin]
  exact splitLine_joinArgs (fun w hw => (h w hw).writable) hroom

theorem digits_of_numeral {base n : ℕ} {w : List UInt8} (h : Numeral base w n) :
    ∀ c ∈ w, isspace c = false ∧ c ≠ Console.blank ∧ c ≠ quote ∧ c ≠ 0 ∧ c ≠ 0x2D :=
  fun c hc => not_space_of_digit (exists_numeral.mp ⟨n, h⟩ c hc)

theorem plain_of_numeral {base n : ℕ} {w : List UInt8} (h : Numeral base w n) (hne : w ≠ []) :
    Plain w where
  nonempty := hne
  ended hmem := (digits_of_numeral h 0 hmem).2.2.2.1 rfl
  blank hmem := (digits_of_numeral h _ hmem).2.1 rfl
  quote hmem := (digits_of_numeral h _ hmem).2.2.1 rfl

theorem hex08_ne_nil (n : ℕ) : hex08 n ≠ [] := by
  intro h
  have hlen := congrArg List.length h
  simp only [hex08, List.length_append, List.length_replicate, List.length_map,
    List.length_nil] at hlen
  omega

theorem decimal_ne_nil (n : ℕ) : decimal n ≠ [] := by
  unfold decimal
  split_ifs with hzero
  · simp
  · simp [Nat.digits_ne_nil_iff_ne_zero, hzero]

theorem plain_hex (n : ℕ) : Plain (ascii "0x" ++ hex08 n) := by
  have hdigits := plain_of_numeral (numeral_hex08 n) (hex08_ne_nil n)
  have happend : ∀ c, c ∉ ascii "0x" → c ∉ hex08 n → c ∉ ascii "0x" ++ hex08 n :=
    fun c h h' hmem => (List.mem_append.mp hmem).elim h h'
  exact ⟨by simp [hdigits.nonempty], happend _ (by decide) hdigits.ended,
    happend _ (by decide) hdigits.blank, happend _ (by decide) hdigits.quote⟩

theorem plain_decimal (n : ℕ) : Plain (decimal n) :=
  plain_of_numeral (numeral_decimal n) (decimal_ne_nil n)

theorem number_hex (n : ℕ) : (okOr (takeInt (ascii "0x" ++ hex08 n)) 0).toUInt32 = .ofNat n := by
  refine number_of_literal (fun c hc => ?_) ?_ (.hex (hex08_ne_nil n) (numeral_hex08 n))
  · rcases List.mem_append.mp hc with hc | hc
    · have hstart : ∀ c ∈ ascii "0x", isspace c = false := by decide +kernel
      exact hstart c hc
    · exact (digits_of_numeral (numeral_hex08 n) c hc).1
  · rintro ⟨ds, heq, -⟩
    cases heq

theorem head_decimal {n : ℕ} (hn : n ≠ 0) : (decimal n).head? ≠ some 0x30 := by
  have hne : Nat.digits 10 n ≠ [] := Nat.digits_ne_nil_iff_ne_zero.mpr hn
  have hlast := Nat.getLast_digit_ne_zero 10 hn
  have hlt : (Nat.digits 10 n).getLast hne < 10 :=
    Nat.digits_lt_base (by decide) (List.getLast_mem hne)
  rw [decimal, if_neg hn, List.head?_map, List.head?_reverse, List.getLast?_eq_some_getLast hne,
    Option.map_some]
  generalize (Nat.digits 10 n).getLast hne = v at hlast hlt
  interval_cases v <;> simp at hlast ⊢

theorem number_decimal (n : ℕ) : (okOr (takeInt (decimal n)) 0).toUInt32 = .ofNat n := by
  have hdigits := numeral_decimal n
  refine number_of_literal (fun c hc => (digits_of_numeral hdigits c hc).1) ?_ ?_
  · rintro ⟨ds, heq, -⟩
    have hminus := (digits_of_numeral hdigits 0x2D (by rw [heq]; simp)).2.2.2.2
    exact hminus rfl
  · by_cases hzero : n = 0
    · subst hzero
      exact @Literal.octal [] 0 ⟨[], rfl, rfl⟩
    · have hhead := head_decimal hzero
      cases hdec : decimal n with
      | nil => exact absurd hdec (decimal_ne_nil n)
      | cons d ds =>
        rw [hdec] at hhead hdigits
        exact .decimal (fun hd => hhead (by rw [hd]; rfl)) hdigits

/-! ## What is read -/

theorem fromBytes_crcBytes (crc : UInt32) : fromBytes (crcBytes crc) = crc := by
  apply UInt32.toNat_inj.mp
  have hlt := crc.toNat_lt
  simp only [fromBytes, crcBytes, List.foldr_cons, List.foldr_nil, UInt32.toNat_add,
    UInt32.toNat_mul, UInt8.toNat_toUInt32, UInt32.toNat_toUInt8, UInt32.toNat_shiftRight,
    UInt32.reduceToNat, Nat.shiftRight_eq_div_pow, Nat.reduceMod, Nat.reducePow, Nat.zero_mul,
    Nat.zero_mod, Nat.zero_add]
  omega

theorem splitArgs_commandText {command : List UInt8} (hcommand : Plain command) (addr size : ℕ) :
    splitArgs (commandText command addr size) =
      [command, ascii "0x" ++ hex08 addr, decimal size] := by
  have htext : commandText command addr size =
      [Console.blank].intercalate [command, ascii "0x" ++ hex08 addr, decimal size] := by
    have hstart : ascii " 0x" = Console.blank :: ascii "0x" := rfl
    have hblank : ascii " " = [Console.blank] := rfl
    simp [commandText, hstart, hblank, List.intercalate]
  rw [htext]
  refine splitArgs_plain ?_ (by simp)
  simp only [List.forall_mem_cons]
  exact ⟨hcommand, plain_hex addr, plain_decimal size, fun w hw => absurd hw List.not_mem_nil⟩

section Read

variable {read : BinaryStream.Read} {mem : UInt32 → UInt8} {command : List UInt8} {addr size : ℕ}
  {polls : List (Option UInt8)} {r : List UInt8 × Bool}

/-- What the host gets of a transfer that the command answers with. -/
def received (size : ℕ) : Option BinaryStream.Outcome → Option (List UInt8 × UInt32)
  | some (.sent bytes) =>
    if (bytes.take (size + 4)).length < size + 4 then none
    else some ((bytes.take (size + 4)).take size, fromBytes (slice (bytes.take (size + 4)) size 4))
  | _ => none

/-- The host takes what it asked for, or too few bytes came. -/
theorem received_area (size : ℕ) (a : UInt32) (n : ℕ) (hn : n = size ∨ n < size) :
    (received size (some (.sent (area mem a n ++ crcBytes (crc32 (area mem a n)))))).map
      saveReadData = if n = size then some (area mem a n, true) else none := by
  have hlen : (area mem a n).length = n := by simp [area]
  have hcrc (crc : UInt32) : (crcBytes crc).length = 4 := rfl
  rcases hn with rfl | hlt
  · have htake : (area mem a n ++ crcBytes (crc32 (area mem a n))).take (n + 4) =
        area mem a n ++ crcBytes (crc32 (area mem a n)) :=
      List.take_of_length_le (by rw [List.length_append, hlen, hcrc])
    have hfirst : (area mem a n ++ crcBytes (crc32 (area mem a n))).take n = area mem a n :=
      List.take_left' hlen
    have hrest : slice (area mem a n ++ crcBytes (crc32 (area mem a n))) n 4 =
        crcBytes (crc32 (area mem a n)) := by
      rw [slice, List.drop_left' hlen]
      rfl
    simp only [received]
    rw [htake, if_neg (by rw [List.length_append, hlen, hcrc]; omega), hfirst, hrest,
      fromBytes_crcBytes]
    simp [saveReadData]
  · simp only [received]
    rw [if_pos (by rw [List.length_take, List.length_append, hlen, hcrc]; omega),
      if_neg (by omega)]
    rfl

/-- A read ends with what was asked for, and only so. -/
theorem received_iff (hcommand : Plain command) (hread : ∀ a n, read a n = area mem a n) :
    (∃ fuel, (received size (binaryStreamCommand fuel (splitArgs (commandText command addr size)) read
      polls)).map saveReadData = some r) ↔
      Acknowledged polls ∧ 0 < size ∧ size ≤ 2 ^ 32 - 256 ∧ r = (area mem (.ofNat addr) size, true) := by
  obtain ⟨argv, hargv⟩ : ∃ argv, argv = splitArgs (commandText command addr size) := ⟨_, rfl⟩
  rw [← hargv]
  rw [splitArgs_commandText hcommand] at hargv
  have haddr : FlashShell.number argv 1 = .ofNat addr := by
    rw [hargv]
    exact number_hex addr
  have hsize : FlashShell.number argv 2 = .ofNat size := by
    rw [hargv]
    exact number_decimal size
  have hlen : argv.length = 3 := by rw [hargv]; rfl
  have hspec := binaryStreamCommand_spec hread argv polls
  have hmod : (UInt32.ofNat size).toNat = size % 2 ^ 32 := UInt32.toNat_ofNat'
  simp only [Answers, hlen, ne_eq, not_true, if_false, haddr, hsize, hmod] at hspec
  constructor
  · rintro ⟨fuel, h⟩
    obtain ⟨got, hgot, hr⟩ := Option.map_eq_some_iff.mp h
    cases hcmd : binaryStreamCommand fuel argv read polls with
    | none =>
      rw [hcmd] at hgot
      cases hgot
    | some outcome =>
      rw [hcmd] at h hgot
      have hanswer := (hspec outcome).mp ⟨fuel, hcmd⟩
      split_ifs at hanswer with hzero
      · rw [hanswer] at hgot
        cases hgot
      · rcases hanswer with ⟨-, rfl⟩ | ⟨hack, hle, rfl⟩
        · cases hgot
        · rw [received_area size _ _ (by omega)] at h
          split_ifs at h with hexact
          have hpos : size % 2 ^ 32 ≠ 0 := fun h0 => hzero (UInt32.toNat_inj.mp (hmod.trans h0))
          refine ⟨hack, by omega, by omega, ?_⟩
          rw [← Option.some.inj h, hexact]
  · rintro ⟨hack, hpos, hle, rfl⟩
    have hsmall : size % 2 ^ 32 = size := Nat.mod_eq_of_lt (by omega)
    have hnonzero : ¬ UInt32.ofNat size = 0 := by
      intro h0
      have hnat := congrArg UInt32.toNat h0
      rw [hmod, hsmall] at hnat
      exact absurd hnat (by simpa using Nat.pos_iff_ne_zero.mp hpos)
    obtain ⟨fuel, hfuel⟩ := (hspec _).mpr (by
      rw [if_neg hnonzero]
      exact .inr ⟨hack, by omega, rfl⟩)
    refine ⟨fuel, ?_⟩
    rw [hfuel, received_area size _ _ (.inl hsmall), if_pos hsmall, hsmall]

end Read

theorem plain_flash : Plain (ascii "flash_read") := by
  constructor <;> decide

theorem plain_memory : Plain (ascii "memory_read") := by
  constructor <;> decide

/-- The device runs the command that the host names. -/
theorem stepReadBinary_eq (fuel : ℕ) (d : FlashShell.Device) (addr size : ℕ)
    (polls : List (Option UInt8)) :
    stepReadBinary fuel d (ascii "flash_read") addr size polls =
      received size (binaryStreamCommand fuel
        (splitArgs (commandText (ascii "flash_read") addr size)) (flashReader d.chip) polls) ∧
    stepReadBinary fuel d (ascii "memory_read") addr size polls =
      received size (binaryStreamCommand fuel
        (splitArgs (commandText (ascii "memory_read") addr size)) (memoryCopy d.ram) polls) := by
  have hother : ascii "memory_read" ≠ ascii "flash_read" := by decide
  constructor
  · simp only [stepReadBinary, deviceSends, splitArgs_commandText plain_flash, List.head?_cons, if_true]
    cases binaryStreamCommand fuel _ (flashReader d.chip) polls with
    | none => rfl
    | some outcome => cases outcome <;> rfl
  · simp only [stepReadBinary, deviceSends, splitArgs_commandText plain_memory, List.head?_cons,
      Option.some.injEq, if_neg hother, if_true]
    cases binaryStreamCommand fuel _ (memoryCopy d.ram) polls with
    | none => rfl
    | some outcome => cases outcome <;> rfl

theorem segment_small (seg : Segment) : seg.addr + seg.size ≤ 2 ^ 24 ∧ 0 < seg.size := by
  cases seg <;> decide

theorem area_segment (c : Nor.Chip) (seg : Segment) :
    area (fun b => c.cells (b.toNat % 2 ^ 24)) (.ofNat seg.addr) seg.size =
      c.read seg.addr seg.size := by
  obtain ⟨hfits, -⟩ := segment_small seg
  refine List.map_congr_left fun i hi => ?_
  have hlt := List.mem_range.mp hi
  show c.cells ((UInt32.ofNat seg.addr + UInt32.ofNat i).toNat % 2 ^ 24) = c.cells (seg.addr + i)
  congr 1
  rw [UInt32.toNat_add, UInt32.toNat_ofNat', UInt32.toNat_ofNat']
  omega

/-- The host ends with the bytes it asked for and their checksum if and only if it acknowledged in
time and the size is one that the device can count to. A backup is the flash of the segment. -/
theorem modeReads_iff (d : FlashShell.Device) (polls : List (Option UInt8))
    (r : List UInt8 × Bool) :
    (∀ seg, (∃ fuel, modeBackup fuel d seg polls = some r) ↔
      Acknowledged polls ∧ r = (d.chip.read seg.addr seg.size, true)) ∧
    ∀ addr size, (∃ fuel, modeMemory fuel d addr size polls = some r) ↔
      Acknowledged polls ∧ 0 < size ∧ size ≤ 2 ^ 32 - 256 ∧
        r = (area d.ram (.ofNat addr) size, true) := by
  refine ⟨fun seg => ?_, fun addr size => ?_⟩
  · obtain ⟨hfits, hpos⟩ := segment_small seg
    simp only [modeBackup, (stepReadBinary_eq _ d _ _ polls).1]
    rw [received_iff plain_flash (flashReader_eq d.chip), area_segment]
    exact ⟨fun ⟨hack, _, _, hr⟩ => ⟨hack, hr⟩, fun ⟨hack, hr⟩ => ⟨hack, hpos, by omega, hr⟩⟩
  · simp only [modeMemory, (stepReadBinary_eq _ d _ _ polls).2]
    exact received_iff plain_memory fun _ _ => rfl

end BekenCam.Bkloader
