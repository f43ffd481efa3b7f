import BekenCam.ConfigJson
import BekenCam.ConfigStorage

/-!
# Settings survive JSON

The writer is one run over a text that fits the buffer however much of it is escaped. The reader
takes the members of that text one by one, and each puts its field back.
-/
namespace BekenCam.Settings

open FlashKv Json ReadM
open Http (ascii)

/-! ## Writing -/

def escapeByte (c : UInt8) : List UInt8 :=
  if c = quote ∨ c = backslash then [backslash, c]
  else if c < 0x20 then Writer.unicodeEscape c
  else [c]

def quoted (s : List UInt8) : List UInt8 := quote :: (s.flatMap escapeByte ++ [quote])

theorem length_escapeByte_le (c : UInt8) : (escapeByte c).length ≤ 6 := by
  unfold escapeByte
  split_ifs
  · exact Nat.le_add_left 2 4
  · exact Nat.le_refl 6
  · exact Nat.le_add_left 1 5

theorem length_quoted_le (s : List UInt8) : (quoted s).length ≤ 6 * s.length + 2 := by
  have hflat : (s.flatMap escapeByte).length ≤ 6 * s.length := by
    induction s with
    | nil => exact le_rfl
    | cons c s ih =>
      have hc := length_escapeByte_le c
      rw [List.flatMap_cons, List.length_append, List.length_cons]
      omega
  rw [quoted, List.length_cons, List.length_append, List.length_singleton]
  omega

namespace Writer

variable (w : Writer)

theorem text_append (a b : List UInt8) : w.text (a ++ b) = (w.text a).text b := List.foldl_append ..

theorem put_eq (c : UInt8) : w.put c = w.text [c] := rfl

/-- A member has been written. -/
def notFirst : Writer := { w with first := false }

theorem text_notFirst (s : List UInt8) : w.notFirst.text s = (w.text s).notFirst := by
  induction s generalizing w with
  | nil => rfl
  | cons c s ih =>
    have hput : w.notFirst.put c = (w.put c).notFirst := by
      unfold put notFirst
      split_ifs <;> rfl
    change (w.notFirst.put c).text s = ((w.put c).text s).notFirst
    rw [hput, ih]

theorem first_put (c : UInt8) : (w.put c).first = w.first := by
  unfold put
  split_ifs <;> rfl

theorem char_eq (c : UInt8) : w.char c = w.text (escapeByte c) := by
  unfold char escapeByte
  split_ifs <;> rfl

theorem string_eq (s : List UInt8) : w.string s = w.text (quoted s) := by
  have hchars (w : Writer) : s.foldl char w = w.text (s.flatMap escapeByte) := by
    induction s generalizing w with
    | nil => rfl
    | cons c s ih => rw [List.foldl_cons, ih, char_eq, List.flatMap_cons, text_append]
  rw [string, hchars, put_eq, put_eq, ← text_append, ← text_append]
  rfl

/-- As long as the text and a NUL fit. -/
theorem text_spec {w : Writer} {s : List UInt8} (hok : w.ok = true) (hbuf : w.size ≤ w.buf.length)
    (hfits : w.used + s.length < w.size) :
    w.text s = { w with buf := writeAt w.buf w.used s, used := w.used + s.length } := by
  induction s generalizing w with
  | nil =>
    change w = _
    rw [writeAt, List.append_nil, List.length_nil, Nat.add_zero, List.take_append_drop]
  | cons c s ih =>
    rw [List.length_cons] at hfits
    have hput : w.put c =
        { w with buf := writeAt w.buf w.used [c], used := w.used + 1 } := by
      rw [put, if_pos hok, if_neg (by omega)]
    have hlen : (writeAt w.buf w.used [c]).length = w.buf.length :=
      length_writeAt_of_le (by rw [List.length_singleton]; omega)
    have hjoin : writeAt (writeAt w.buf w.used [c]) (w.used + 1) s = writeAt w.buf w.used (c :: s) :=
      writeAt_writeAt (by omega)
    have hrest := ih (w := w.put c) (by rw [hput]; exact hok)
      (by rw [hput]; exact hbuf.trans hlen.ge) (by rw [hput]; simp only; omega)
    change (w.put c).text s = _
    rw [hrest, hput]
    simp only [hjoin, List.length_cons, Nat.add_assoc, Nat.add_comm 1]

end Writer

/-- A member of the object: its text, and what reading it does. -/
structure Member where
  name : List UInt8
  value : List UInt8
  apply : Config → Config

def Member.text (m : Member) : List UInt8 := quoted m.name ++ colon :: m.value

namespace Writer

variable (w : Writer)

def member (m : Member) : Writer := (w.key m.name).text m.value

theorem member_eq (m : Member) :
    w.member m = (w.text ((if w.first then [] else [comma]) ++ m.text)).notFirst := by
  have hcomma : (if w.first then w else w.put comma) =
      w.text (if w.first then [] else [comma]) := by
    split_ifs <;> rfl
  change ((((if w.first then w else w.put comma).notFirst.string m.name).put colon).text m.value) = _
  rw [hcomma, string_eq, put_eq, ← text_append, ← text_append, text_notFirst, ← text_append]
  rfl

/-- Members behind the first. -/
theorem members_eq (ms : List Member) :
    ms.foldl member w.notFirst = (w.text (ms.flatMap fun m => comma :: m.text)).notFirst := by
  induction ms generalizing w with
  | nil => rfl
  | cons m ms ih =>
    have hm : w.notFirst.member m = (w.text (comma :: m.text)).notFirst := by
      rw [member_eq, text_notFirst]
      rfl
    rw [List.foldl_cons, hm, ih, List.flatMap_cons, text_append]

end Writer

def macMember (config : Config) : Member where
  name := ascii "mac"
  value := quoted (macText config.mac)
  apply c := { c with mac := config.mac }

/-- The members behind the address. -/
def members (config : Config) : List Member :=
  [⟨ascii "ap_ssid", quoted (cString config.apSsid),
      fun c => { c with apSsid := writeAt c.apSsid 0 (cString config.apSsid ++ [0]) }⟩,
    ⟨ascii "ap_channel", ascii (toString config.apChannel.toUInt32.toNat),
      fun c => { c with apChannel := config.apChannel }⟩,
    ⟨ascii "ap_enabled", if config.apEnabled then ascii "true" else ascii "false",
      fun c => { c with apEnabled := config.apEnabled }⟩,
    ⟨ascii "sta_ssid", quoted (cString config.staSsid),
      fun c => { c with staSsid := writeAt c.staSsid 0 (cString config.staSsid ++ [0]) }⟩,
    ⟨ascii "sta_password", quoted (cString config.staPassword),
      fun c => { c with staPassword := writeAt c.staPassword 0 (cString config.staPassword ++ [0]) }⟩,
    ⟨ascii "sta_enabled", if config.staEnabled then ascii "true" else ascii "false",
      fun c => { c with staEnabled := config.staEnabled }⟩,
    ⟨ascii "led_enabled", if config.ledEnabled then ascii "true" else ascii "false",
      fun c => { c with ledEnabled := config.ledEnabled }⟩,
    ⟨ascii "telnet_enabled", if config.telnetEnabled then ascii "true" else ascii "false",
      fun c => { c with telnetEnabled := config.telnetEnabled }⟩]

/-- The text of the settings. -/
def configText (config : Config) : List UInt8 :=
  openBrace :: ((macMember config).text ++
    ((members config).flatMap (fun m => comma :: m.text) ++ [closeBrace]))

theorem configToJson_eq {config : Config} {buf : List UInt8} {size : ℕ} (hbuf : size ≤ buf.length)
    (hfits : (configText config).length < size) :
    configToJson config buf size =
      ((configText config).length, writeAt buf 0 (configText config ++ [0])) := by
  have hfold : configToJson config buf size =
      let w := ((members config).foldl Writer.member
        (((⟨buf, size, 0, true, true⟩ : Writer).put openBrace).member (macMember config))).put
          closeBrace
      if w.ok then (w.used, writeAt w.buf w.used [0]) else (0, w.buf) := by
    simp only [configToJson, Writer.field, Writer.string_eq, Writer.fieldBool, Writer.fieldNumber]
    rfl
  have htext : ((members config).foldl Writer.member
      (((⟨buf, size, 0, true, true⟩ : Writer).put openBrace).member (macMember config))).put
        closeBrace =
      ((⟨buf, size, 0, true, true⟩ : Writer).text (configText config)).notFirst := by
    rw [Writer.member_eq, Writer.first_put, if_pos rfl, Writer.members_eq, Writer.put_eq,
      Writer.put_eq, Writer.text_notFirst, ← Writer.text_append,
      ← Writer.text_append, ← Writer.text_append]
    simp only [configText, List.nil_append, List.singleton_append]
  have hspec := Writer.text_spec (w := ⟨buf, size, 0, true, true⟩) rfl hbuf
    (by rw [Nat.zero_add]; exact hfits)
  have hjoin := writeAt_writeAt (l := buf) (a := configText config) (b := [0]) (Nat.zero_le _)
  rw [Nat.zero_add] at hjoin
  rw [hfold, htext, hspec]
  simp only [Writer.notFirst, if_true, Nat.zero_add, hjoin]

/-- The buffer of `respond_config`. -/
def configJsonMax : ℕ := 1024

/-- Three strings written at their longest. -/
theorem length_configText_lt {config : Config} (hsettings : config.Terminated)
    (hvalid : isValid config = true) : (configText config).length < configJsonMax := by
  have hap := length_cString_lt hsettings.apSsid_terminated
  have hsta := length_cString_lt hsettings.staSsid_terminated
  have hpass := length_cString_lt hsettings.staPassword_terminated
  rw [hsettings.apSsid_size, configSsidMax] at hap
  rw [hsettings.staSsid_size, configSsidMax] at hsta
  rw [hsettings.staPassword_size, configPasswordMax] at hpass
  have hmac : (quoted (macText config.mac)).length ≤ 6 * 17 + 2 := length_quoted_le _
  have hap' := length_quoted_le (cString config.apSsid)
  have hsta' := length_quoted_le (cString config.staSsid)
  have hpass' := length_quoted_le (cString config.staPassword)
  have hbool (on : Bool) : (if on then ascii "true" else ascii "false").length ≤ 5 := by
    cases on <;> decide
  have hbool1 := hbool config.apEnabled
  have hbool2 := hbool config.staEnabled
  have hbool3 := hbool config.ledEnabled
  have hbool4 := hbool config.telnetEnabled
  have hnumber : (ascii (toString config.apChannel.toUInt32.toNat)).length ≤ 2 := by
    have hhigh := UInt8.le_iff_toNat_le.mp (isValid_iff.mp hvalid).2.2.1.2
    have hall : ∀ k < 15, (ascii (toString k)).length ≤ 2 := by decide
    rw [UInt8.toNat_toUInt32]
    exact hall _ (Nat.lt_succ_of_le hhigh)
  have hnames : (quoted (ascii "mac")).length + (quoted (ascii "ap_ssid")).length +
      (quoted (ascii "ap_channel")).length + (quoted (ascii "ap_enabled")).length +
      (quoted (ascii "sta_ssid")).length + (quoted (ascii "sta_password")).length +
      (quoted (ascii "sta_enabled")).length + (quoted (ascii "led_enabled")).length +
      (quoted (ascii "telnet_enabled")).length = 104 := by decide
  simp only [configText, macMember, members, Member.text, List.flatMap_cons, List.flatMap_nil,
    List.length_cons, List.length_append, List.length_nil, configJsonMax]
  omega

/-! ## Reading -/

theorem hexValue_hexDigit {n : UInt8} (h : n < 16) : hexValue (hexDigit n) = some n := by
  have hall : ∀ k < 16, hexValue (hexDigit (UInt8.ofNat k)) = some (UInt8.ofNat k) := by decide
  have hn := hall n.toNat (UInt8.lt_iff_toNat_lt.mp h)
  rwa [UInt8.ofNat_toNat] at hn

/-- The escape of a control character is read back. -/
theorem unicodeByte_escape {c : UInt8} (hlow : c < 0x20) (hne : c ≠ 0) :
    unicodeByte 0x30 0x30 (hexDigit ((c &&& 0x1F) >>> 4)) (hexDigit ((c &&& 0x1F) &&& 0x0F)) =
      some c := by
  have hall : ∀ k < 32, k ≠ 0 → unicodeByte 0x30 0x30
      (hexDigit ((UInt8.ofNat k &&& 0x1F) >>> 4)) (hexDigit ((UInt8.ofNat k &&& 0x1F) &&& 0x0F)) =
        some (UInt8.ofNat k) := by decide
  have hc := hall c.toNat (UInt8.lt_iff_toNat_lt.mp hlow)
    fun h => hne (UInt8.toNat_inj.mp h)
  rwa [UInt8.ofNat_toNat] at hc

/-- One character comes back as it was, however it is written. -/
theorem readChars_escapeByte {size : ℕ} {out : List UInt8} {c : UInt8} (hne : c ≠ 0)
    (hfits : out.length + 1 < size) (r : List UInt8) :
    readChars (some size) out (escapeByte c ++ r) = readChars (some size) (out ++ [c]) r := by
  have hkeep : keepChar (some size) out c = some (out ++ [c]) := by
    rw [keepChar, if_neg (by omega)]
  unfold escapeByte
  split_ifs with hspecial hlow
  · have hshort : shortEscape c = some c := by
      rw [shortEscape, if_pos (hspecial.imp_right .inl)]
    have hletter : c ≠ letterU := by
      rcases hspecial with rfl | rfl <;> decide
    change readChars (some size) out (backslash :: c :: r) = _
    rw [readChars.eq_def]
    dsimp only
    rw [if_neg (by decide), if_neg (by decide), if_pos rfl, if_neg hletter, hshort]
    simp only [Option.bind_some, hkeep]
  · change readChars (some size) out (backslash :: letterU :: 0x30 :: 0x30 ::
      hexDigit ((c &&& 0x1F) >>> 4) :: hexDigit ((c &&& 0x1F) &&& 0x0F) :: r) = _
    rw [readChars.eq_def]
    dsimp only
    rw [if_neg (by decide), if_neg (by decide), if_pos rfl, if_pos rfl,
      unicodeByte_escape hlow hne]
    simp only [Option.bind_some, hkeep]
  · rw [not_or] at hspecial
    change readChars (some size) out (c :: r) = _
    rw [readChars.eq_def]
    dsimp only
    rw [if_neg hspecial.1, if_neg hlow, if_neg hspecial.2, hkeep]

theorem readChars_quoted {size : ℕ} {s out : List UInt8} (hne : (0 : UInt8) ∉ s)
    (hfits : out.length + s.length < size) (r : List UInt8) :
    readChars (some size) out (s.flatMap escapeByte ++ quote :: r) =
      (some (out ++ s ++ [0]), r) := by
  induction s generalizing out with
  | nil =>
    change readChars (some size) out (quote :: r) = _
    rw [readChars.eq_def, List.append_nil]
    rfl
  | cons c s ih =>
    rw [List.mem_cons, not_or] at hne
    rw [List.length_cons] at hfits
    rw [List.flatMap_cons, List.append_assoc, readChars_escapeByte (Ne.symm hne.1) (by omega),
      ih hne.2 (by rw [List.length_append, List.length_singleton]; omega)]
    simp only [List.append_assoc, List.singleton_append]

theorem takes_consume {c : UInt8} (hspace : isSpace c = false) (r : List UInt8) :
    Takes (consume c) (c :: r) true r := by
  unfold Takes consume
  rw [List.dropWhile_cons, hspace]
  simp

theorem takes_consume_other {b c : UInt8} (hspace : isSpace b = false) (hne : b ≠ c)
    (r : List UInt8) : Takes (consume c) (b :: r) false (b :: r) := by
  unfold Takes consume
  rw [List.dropWhile_cons, hspace]
  simp [hne]

/-- A string that fits is read as it is in the array. -/
theorem takes_quoted {size : ℕ} {s : List UInt8} (hne : (0 : UInt8) ∉ s) (hfits : s.length < size)
    (r : List UInt8) : Takes (readString (some size)) (quoted s ++ r) (s ++ [0]) r := by
  unfold readString
  refine takes_bind.mpr ⟨true, _, takes_consume rfl _, ?_⟩
  have hfits' : ([] : List UInt8).length + s.length < size := by
    rw [List.length_nil]
    omega
  have hchars := readChars_quoted hne hfits' r
  have hassoc : (s.flatMap escapeByte ++ [quote]).append r = s.flatMap escapeByte ++ quote :: r :=
    List.append_assoc ..
  rw [if_pos rfl, hassoc]
  exact hchars

theorem takes_readBool (value : Bool) (r : List UInt8) :
    Takes readBool ((if value then ascii "true" else ascii "false") ++ r) value r := by
  cases value with
  | true => exact takes_orElse.mpr (.inl rfl)
  | false => exact takes_orElse.mpr (.inr ⟨_, rfl, rfl⟩)

/-- What may stand behind a value in the text. -/
def Follows (b : UInt8) : Prop := b = comma ∨ b = closeBrace

theorem takes_readNumber {channel : UInt8} (hlow : 1 ≤ channel) (hhigh : channel ≤ 14) {b : UInt8}
    (hb : Follows b) (r : List UInt8) :
    Takes readNumber (ascii (toString channel.toUInt32.toNat) ++ b :: r) channel.toUInt32
      (b :: r) := by
  have hlow' : 1 ≤ channel.toNat := UInt8.le_iff_toNat_le.mp hlow
  have hhigh' : channel.toNat ≤ 14 := UInt8.le_iff_toNat_le.mp hhigh
  rw [← UInt8.ofNat_toNat (x := channel)]
  generalize channel.toNat = k at hlow' hhigh'
  rcases hb with rfl | rfl <;> interval_cases k <;> rfl

/-! ## The address -/

theorem nibbles (b : UInt8) : b >>> 4 < 16 ∧ b &&& 0x0F < 16 ∧ (b >>> 4) * 16 + (b &&& 0x0F) = b := by
  have hand : b.toNat &&& 15 = b.toNat % 16 := Nat.and_two_pow_sub_one_eq_mod b.toNat 4
  have hb := b.toNat_lt
  have hhigh : (b >>> 4).toNat = b.toNat / 16 := by
    simp [UInt8.toNat_shiftRight, Nat.shiftRight_eq_div_pow]
  have hlow : (b &&& 0x0F).toNat = b.toNat % 16 := hand
  refine ⟨UInt8.lt_iff_toNat_lt.mpr ?_, UInt8.lt_iff_toNat_lt.mpr ?_, UInt8.toNat_inj.mp ?_⟩
  · rw [hhigh]
    change _ < 16
    omega
  · rw [hlow]
    change _ < 16
    omega
  · rw [UInt8.toNat_add, UInt8.toNat_mul, hhigh, hlow]
    change (b.toNat / 16 * 16 % 256 + b.toNat % 16) % 256 = b.toNat
    omega

theorem hexDigit_ne_zero {n : UInt8} (h : n < 16) : hexDigit n ≠ 0 := by
  intro hzero
  have hvalue := hexValue_hexDigit h
  rw [hzero] at hvalue
  cases hvalue

theorem zero_notMem_hexByte (b : UInt8) : (0 : UInt8) ∉ hexByte b := by
  obtain ⟨hhigh, hlow, -⟩ := nibbles b
  intro hmem
  rcases List.mem_pair.mp hmem with h | h
  · exact hexDigit_ne_zero hhigh h.symm
  · exact hexDigit_ne_zero hlow h.symm

/-- The address is read back from its text, digit by digit. -/
theorem takes_readMac {mac : List UInt8} (hsize : mac.length = 6) (r : List UInt8) :
    Takes readMac (quoted (macText mac) ++ r) mac r := by
  obtain ⟨a, b, c, d, e, f, rfl⟩ : ∃ a b c d e f, mac = [a, b, c, d, e, f] := by
    match mac, hsize with
    | [a, b, c, d, e, f], _ => exact ⟨a, b, c, d, e, f, rfl⟩
  have htext : macText [a, b, c, d, e, f] =
      hexByte a ++ colon :: (hexByte b ++ colon :: (hexByte c ++ colon :: (hexByte d ++
        colon :: (hexByte e ++ colon :: hexByte f)))) := rfl
  have hne : (0 : UInt8) ∉ macText [a, b, c, d, e, f] := by
    rw [htext]
    simp only [List.mem_append, List.mem_cons, not_or]
    exact ⟨zero_notMem_hexByte a, by decide, zero_notMem_hexByte b, by decide,
      zero_notMem_hexByte c, by decide, zero_notMem_hexByte d, by decide, zero_notMem_hexByte e,
      by decide, zero_notMem_hexByte f⟩
  have hbyte (b : UInt8) : hexValue (hexDigit (b >>> 4)) = some (b >>> 4) ∧
      hexValue (hexDigit (b &&& 0x0F)) = some (b &&& 0x0F) :=
    ⟨hexValue_hexDigit (nibbles b).1, hexValue_hexDigit (nibbles b).2.1⟩
  have hmac : (List.range 6).mapM (macByte (macText [a, b, c, d, e, f] ++ [0])) =
      some [a, b, c, d, e, f] := by
    simp [List.range, List.range.loop, macByte, htext, hexByte, hbyte, nibbles]
  unfold readMac
  refine takes_bind.mpr ⟨_, r, takes_quoted hne (show 17 < 18 by decide) r, ?_⟩
  rw [cString_append_zero hne, if_neg (fun h => h rfl), hmac]
  rfl

/-! ## The members -/

/-- In front of a comma or the end, the member is read and does what it says. -/
def Member.Readable (m : Member) : Prop :=
  ∀ (config : Config) (b : UInt8) (r : List UInt8), Follows b →
    Takes (readMember config) (m.text ++ b :: r) (m.apply config) (b :: r)

theorem Member.readable {name value : List UInt8} {apply : Config → Config}
    (hname : (0 : UInt8) ∉ name) (hshort : name.length < 24)
    (hfield : ∀ (config : Config) (b : UInt8) (r : List UInt8), Follows b →
      Takes (readField name config) (value ++ b :: r) (apply config) (b :: r)) :
    (⟨name, value, apply⟩ : Member).Readable := by
  intro config b r hb
  have hkey := takes_quoted hname hshort (colon :: (value ++ b :: r))
  unfold readMember Member.text
  rw [List.append_assoc]
  refine takes_bind.mpr ⟨_, _, hkey, ?_⟩
  refine takes_bind.mpr ⟨true, _, takes_consume (by decide) _, ?_⟩
  rw [if_pos rfl, cString_append_zero hname]
  exact hfield config b r hb

/-- A field that is read by `read` and put into the settings by `put`. -/
theorem takes_field {α : Type} {read : ReadM α} {value : α} {r r' : List UInt8}
    (h : Takes read r value r') (put : α → Config) :
    Takes (read >>= fun v => return put v) r (put value) r' :=
  takes_bind.mpr ⟨value, r', h, takes_pure.mpr ⟨rfl, rfl⟩⟩

theorem readable_mac {config : Config} (hsize : config.mac.length = 6) :
    (macMember config).Readable :=
  Member.readable (by decide) (by decide) fun c b r _ =>
    takes_field (takes_readMac hsize (b :: r)) fun mac => { c with mac := mac }

theorem readable_members {config : Config} (hsettings : config.Terminated)
    (hlow : 1 ≤ config.apChannel) (hhigh : config.apChannel ≤ 14) :
    ∀ m ∈ members config, m.Readable := by
  have hap := length_cString_lt hsettings.apSsid_terminated
  have hsta := length_cString_lt hsettings.staSsid_terminated
  have hpass := length_cString_lt hsettings.staPassword_terminated
  rw [hsettings.apSsid_size] at hap
  rw [hsettings.staSsid_size] at hsta
  rw [hsettings.staPassword_size] at hpass
  simp only [members, List.forall_mem_cons, List.not_mem_nil, false_imp_iff, implies_true, and_true]
  refine ⟨?_, ?_, ?_, ?_, ?_, ?_, ?_, ?_⟩
  · exact Member.readable (by decide) (by decide) fun c b r _ =>
      takes_field (takes_quoted (zero_notMem_cString _) hap (b :: r))
        fun text => { c with apSsid := writeAt c.apSsid 0 text }
  · refine Member.readable (by decide) (by decide) fun c b r hb => ?_
    have hsmall : ¬config.apChannel.toUInt32 > 255 := by
      intro hgt
      have hlt := UInt32.lt_iff_toNat_lt.mp hgt
      have hle := UInt8.le_iff_toNat_le.mp hhigh
      rw [UInt8.toNat_toUInt32] at hlt
      exact absurd (hlt.trans_le hle) (by decide)
    refine takes_bind.mpr ⟨_, _, takes_readNumber hlow hhigh hb r, ?_⟩
    rw [if_neg hsmall, UInt8.toUInt8_toUInt32]
    exact takes_pure.mpr ⟨rfl, rfl⟩
  · exact Member.readable (by decide) (by decide) fun c b r _ =>
      takes_field (takes_readBool config.apEnabled (b :: r)) fun on => { c with apEnabled := on }
  · exact Member.readable (by decide) (by decide) fun c b r _ =>
      takes_field (takes_quoted (zero_notMem_cString _) hsta (b :: r))
        fun text => { c with staSsid := writeAt c.staSsid 0 text }
  · exact Member.readable (by decide) (by decide) fun c b r _ =>
      takes_field (takes_quoted (zero_notMem_cString _) hpass (b :: r))
        fun text => { c with staPassword := writeAt c.staPassword 0 text }
  · exact Member.readable (by decide) (by decide) fun c b r _ =>
      takes_field (takes_readBool config.staEnabled (b :: r)) fun on => { c with staEnabled := on }
  · exact Member.readable (by decide) (by decide) fun c b r _ =>
      takes_field (takes_readBool config.ledEnabled (b :: r)) fun on => { c with ledEnabled := on }
  · exact Member.readable (by decide) (by decide) fun c b r _ =>
      takes_field (takes_readBool config.telnetEnabled (b :: r))
        fun on => { c with telnetEnabled := on }

/-- The members one after the other, each behind a comma but the first. -/
theorem takes_readMembers {m : Member} {ms : List Member} (h : ∀ m' ∈ m :: ms, m'.Readable)
    {fuel : ℕ} (hfuel : ms.length < fuel) (config : Config) (r : List UInt8) :
    Takes (readMembers fuel config)
      (m.text ++ (ms.flatMap (fun m => comma :: m.text) ++ closeBrace :: r))
      ((m :: ms).foldl (fun c m => m.apply c) config) (closeBrace :: r) := by
  induction ms generalizing m fuel config with
  | nil =>
    obtain ⟨fuel, rfl⟩ := Nat.exists_eq_add_of_lt hfuel
    unfold readMembers
    refine takes_bind.mpr ⟨_, _, h m (List.mem_cons_self ..) config closeBrace r (.inr rfl), ?_⟩
    exact takes_bind.mpr ⟨false, _, takes_consume_other (by decide) (by decide) r,
      takes_pure.mpr ⟨rfl, rfl⟩⟩
  | cons m' ms ih =>
    cases fuel with
    | zero => exact absurd hfuel (Nat.not_lt_zero _)
    | succ fuel =>
      rw [List.length_cons] at hfuel
      have hrest := ih (fun m'' hm => h m'' (List.mem_cons_of_mem _ hm))
        (Nat.lt_of_succ_lt_succ hfuel) (m.apply config)
      unfold readMembers
      rw [List.flatMap_cons, List.append_assoc]
      refine takes_bind.mpr ⟨_, _, h m (List.mem_cons_self ..) config comma _ (.inl rfl), ?_⟩
      exact takes_bind.mpr ⟨true, _, takes_consume (by decide) _, hrest⟩

/-! ## The round trip -/

/-- Every field is put back, whatever the settings were before. -/
theorem same_members {config : Config} (start : Config) :
    ((macMember config :: members config).foldl (fun c m => m.apply c) start).Same config where
  mac := rfl
  apSsid := by
    change cString (writeAt start.apSsid 0 (cString config.apSsid ++ [0])) = _
    rw [writeAt, List.take_zero, List.nil_append, List.append_assoc]
    exact cString_append_zero (zero_notMem_cString _) _
  apChannel := rfl
  apEnabled := rfl
  staSsid := by
    change cString (writeAt start.staSsid 0 (cString config.staSsid ++ [0])) = _
    rw [writeAt, List.take_zero, List.nil_append, List.append_assoc]
    exact cString_append_zero (zero_notMem_cString _) _
  staPassword := by
    change cString (writeAt start.staPassword 0 (cString config.staPassword ++ [0])) = _
    rw [writeAt, List.take_zero, List.nil_append, List.append_assoc]
    exact cString_append_zero (zero_notMem_cString _) _
  staEnabled := rfl
  ledEnabled := rfl
  telnetEnabled := rfl

theorem Config.Same.isValid {config config' : Config} (h : config'.Same config)
    (hvalid : Settings.isValid config = true) : Settings.isValid config' = true := by
  rw [isValid_iff] at hvalid ⊢
  rw [h.mac, h.apChannel, h.staPassword, ne_eq, headD_eq_zero_iff, h.apSsid, ← headD_eq_zero_iff]
  exact hvalid

theorem configFromJson_configText {config : Config} (hsettings : config.Terminated)
    (hvalid : isValid config = true) (start : Config) :
    ∃ loaded, configFromJson (configText config) start = some loaded ∧ loaded.Same config := by
  obtain ⟨-, -, ⟨hlow, hhigh⟩, -⟩ := isValid_iff.mp hvalid
  have hall : ∀ m ∈ macMember config :: members config, m.Readable := by
    rw [List.forall_mem_cons]
    exact ⟨readable_mac hsettings.mac_size, readable_members hsettings hlow hhigh⟩
  have hfuel : (members config).length < (configText config).length := by
    simp only [configText, members, List.flatMap_cons, List.length_cons, List.length_append,
      List.length_nil]
    omega
  have hmembers := takes_readMembers hall hfuel start []
  set loaded := (macMember config :: members config).foldl (fun c m => m.apply c) start with hloaded
  have hsame : loaded.Same config := same_members start
  have hobject : Takes (readObject (configText config).length start) (configText config) loaded [] := by
    unfold readObject
    refine takes_bind.mpr ⟨true, _, takes_consume (by decide) _, ?_⟩
    rw [if_pos rfl]
    have hfirst : Takes (consume closeBrace)
        ((macMember config).text ++ ((members config).flatMap (fun m => comma :: m.text) ++ [closeBrace]))
        false _ := takes_consume_other (by decide) (by decide) _
    refine takes_bind.mpr ⟨false, _, hfirst, ?_⟩
    rw [if_neg (by decide)]
    refine takes_bind.mpr ⟨loaded, _, hmembers, ?_⟩
    refine takes_bind.mpr ⟨true, _, takes_consume (by decide) _, ?_⟩
    rw [if_pos rfl]
    exact takes_bind.mpr ⟨(), [], rfl, takes_pure.mpr ⟨rfl, rfl⟩⟩
  exact ⟨loaded, configFromJson_eq_some.mpr ⟨hobject, hsame.isValid hvalid⟩, hsame⟩

/-- What the settings page sends comes back as the same settings. -/
theorem config_json_round_trip {config : Config} (hsettings : config.Terminated)
    (hvalid : isValid config = true) {buf : List UInt8} (hbuf : configJsonMax ≤ buf.length) :
    ∃ length buf', configToJson config buf configJsonMax = (length, buf') ∧
      0 < length ∧ length < configJsonMax ∧ buf'.length = buf.length ∧
      buf'.drop configJsonMax = buf.drop configJsonMax ∧
      ∀ start, ∃ loaded, configFromJson (buf'.take length) start = some loaded ∧
        loaded.Same config := by
  have hfits := length_configText_lt hsettings hvalid
  have hnul : (configText config ++ [0]).length = (configText config).length + 1 :=
    List.length_append
  have htake : (writeAt buf 0 (configText config ++ [0])).take (configText config).length =
      configText config := by
    rw [writeAt, List.take_zero, List.nil_append, List.append_assoc]
    exact List.take_left
  refine ⟨_, _, configToJson_eq hbuf hfits, Nat.succ_pos _, hfits,
    length_writeAt_of_le (by omega), ?_, fun start => ?_⟩
  · exact drop_writeAt (by omega) hbuf
  · rw [htake]
    exact configFromJson_configText hsettings hvalid start

/-- A name with a quote, a backslash, a control character and bytes above ASCII. -/
def oddSettings : Config where
  mac := [0xC8, 0x47, 0x8C, 0x01, 0x02, 0x04]
  apSsid := [34, 92, 1, 0x80, 0xFF] ++ List.replicate 28 0
  apChannel := 14
  apEnabled := true
  staSsid := ascii "home" ++ List.replicate 29 0
  staPassword := List.replicate 63 31 ++ [0]
  staEnabled := true
  ledEnabled := false
  telnetEnabled := true

theorem config_json_round_trip_escapes :
    ∃ length buf', configToJson oddSettings (List.replicate 1030 7) configJsonMax = (length, buf') ∧
      0 < length ∧ length < configJsonMax ∧ buf'.length = (List.replicate 1030 (7 : UInt8)).length ∧
      buf'.drop configJsonMax = (List.replicate 1030 7).drop configJsonMax ∧
      ∀ start, ∃ loaded, configFromJson (buf'.take length) start = some loaded ∧
        loaded.Same oddSettings :=
  config_json_round_trip ⟨by decide, by decide, by decide, by decide, by decide, by decide, by decide⟩
    (by decide) (by rw [List.length_replicate]; decide)

end BekenCam.Settings
