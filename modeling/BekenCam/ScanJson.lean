import BekenCam.ConfigRoundTrip
import BekenCam.JsonValues
import BekenCam.Ranking
import BekenCam.ScanCollect
import BekenCam.ScanModel

/-!
# The scan as JSON

The networks of a scan are written strongest first, each name once, for as long as there is room for
one more however it is escaped. The list of stations is in the order in which they were heard.
-/
namespace BekenCam.ScanJson

open FlashKv (cString)
open Http (ascii)
open Json (comma colon openBrace closeBrace)
open JsonSyntax
open Scan (ScanStatus ScanStation StationSecurity scanSsidMax)
open Settings (Writer quoted)

def scanStatusName : ScanStatus → List UInt8
  | .ok => ascii "ok"
  | .incomplete => ascii "partial"
  | .timeout => ascii "timeout"

def securityName : StationSecurity → List UInt8
  | .open => ascii "open"
  | .wep => ascii "WEP"
  | .wpa => ascii "WPA"
  | .wpa2 => ascii "WPA2"
  | .wpa3 => ascii "WPA3"

def scanNetworksMax : ℕ := 24

/-- An SSID with every byte escaped, and the fixed text. -/
def scanEntryMax : ℕ := scanSsidMax * 6 + 80

/-- The lengths and the bytes are the same. -/
def sameSsid (a b : ScanStation) : Bool := a.ssid = b.ssid

/-- The format `%d`. -/
def signedText (n : Int8) : List UInt8 :=
  (if n < 0 then [0x2D] else []) ++ ascii (toString n.toInt.natAbs)

/-- The walk over the stations, past those without a name and those already taken. -/
def bestStation (taken stations : List ScanStation) : Option ScanStation :=
  stations.foldl (fun best s =>
    if s.ssid.length = 0 then best
    else
      let seen := taken.any fun t => sameSsid s t
      if !seen && best.all (fun b => s.rssi > b.rssi) then some s else best) none

/-- The name is printed up to its first NUL. -/
def writeNetwork (w : Writer) (count : ℕ) (best : ScanStation) : Writer :=
  let w := if count ≠ 0 then w.put comma else w
  let w := { w with first := true }
  let w := w.put openBrace
  let w := w.field (ascii "ssid") (cString (best.ssid ++ [0]))
  let w := (w.key (ascii "rssi")).text (signedText best.rssi)
  let w := w.fieldNumber (ascii "channel") best.channel.toUInt32
  let w := w.field (ascii "security") (securityName best.security)
  w.put closeBrace

/-- The loop with room for so many more networks. -/
def writeNetworks (stations : List ScanStation) : ℕ → Writer → List ScanStation →
    Writer × List ScanStation
  | 0, w, taken => (w, taken)
  | room + 1, w, taken =>
    if w.ok ∧ w.size - w.used > scanEntryMax then
      match bestStation taken stations with
      | none => (w, taken)
      | some best => writeNetworks stations room (writeNetwork w taken.length best) (taken ++ [best])
    else (w, taken)

def writeStatus (status : ScanStatus) (w : Writer) : Writer :=
  let w := w.put openBrace
  let w := w.field (ascii "status") (scanStatusName status)
  let w := w.key (ascii "networks")
  w.put openBracket

/-- The stations that are listed. -/
def listed (status : ScanStatus) (stations : List ScanStation) (buf : List UInt8) (size : ℕ) :
    List ScanStation :=
  (writeNetworks stations scanNetworksMax (writeStatus status ⟨buf, size, 0, true, true⟩) []).2

/-- The length, and the memory from the buffer on. -/
def scanToJson (status : ScanStatus) (stations : List ScanStation) (buf : List UInt8) (size : ℕ) :
    ℕ × List UInt8 :=
  let (w, _) :=
    writeNetworks stations scanNetworksMax (writeStatus status ⟨buf, size, 0, true, true⟩) []
  let w := w.put closeBracket
  let w := w.put closeBrace
  if w.ok then (w.used, writeAt w.buf w.used [0]) else (0, w.buf)

/-! ## The text -/

/-- What is written of a station. -/
def networkMembers (s : ScanStation) : List (List UInt8 × List UInt8) :=
  [(ascii "ssid", quotedText (cString s.ssid)), (ascii "rssi", signedText s.rssi),
    (ascii "channel", ascii (toString s.channel.toNat)),
    (ascii "security", quotedText (securityName s.security))]

/-- An object whose keys are strings of bytes. -/
def objectOf (members : List (List UInt8 × List UInt8)) : List UInt8 :=
  objectText (members.map fun m => (m.1.map charOf, m.2))

def networkText (s : ScanStation) : List UInt8 := objectOf (networkMembers s)

/-- The object that lists the stations. -/
def scanText (status : ScanStatus) (stations : List ScanStation) : List UInt8 :=
  objectOf [(ascii "status", quotedText (scanStatusName status)),
    (ascii "networks", arrayText (stations.map networkText))]

theorem isJson_number {n : Number} (h : n.Valid) : IsJson n.text := IsJson.scalar (v := .number n) h

/-! ## Numbers -/

theorem ascii_toString (k : ℕ) :
    ascii (toString k) = (Nat.toDigits 10 k).map fun c => UInt8.ofNat c.toNat := by
  rw [← Nat.toList_repr]
  rfl

theorem ascii_toString_ne_nil (k : ℕ) : ascii (toString k) ≠ [] := by
  rw [ascii_toString, ne_eq, List.map_eq_nil_iff]
  exact Nat.toDigits_ne_nil

theorem length_ascii_toString {k : ℕ} (hk : k < 256) : (ascii (toString k)).length ≤ 3 := by
  rw [ascii_toString, List.length_map, Nat.length_toDigits_le_iff (by decide) (by decide)]
  omega

/-- The code of a digit. -/
theorem toNat_digit {c : Char} (h : c.isDigit = true) : 48 ≤ c.toNat ∧ c.toNat ≤ 57 := by
  rw [Char.isDigit, Bool.and_eq_true_iff, decide_eq_true_iff, decide_eq_true_iff] at h
  exact ⟨UInt32.le_iff_toNat_le.mp h.1, UInt32.le_iff_toNat_le.mp h.2⟩

theorem isDigits_ascii (k : ℕ) : IsDigits (ascii (toString k)) := by
  rw [ascii_toString, IsDigits, List.forall_mem_map]
  intro c hc
  obtain ⟨hlow, hhigh⟩ := toNat_digit (Nat.isDigit_of_mem_toDigits (by decide) (by decide) hc)
  have hcode : (UInt8.ofNat c.toNat).toNat = c.toNat := by
    rw [UInt8.toNat_ofNat', Nat.mod_eq_of_lt (by omega)]
  rw [UInt8.le_iff_toNat_le, UInt8.le_iff_toNat_le, hcode]
  exact ⟨hlow, hhigh⟩

/-- No digit zero in front. -/
theorem head_toDigits {n : ℕ} (hn : 0 < n) : (Nat.toDigits 10 n).head? ≠ some '0' := by
  induction n using Nat.strong_induction_on with
  | _ n ih =>
    rw [Nat.toDigits_eq_if (by decide)]
    split_ifs with hsmall
    · rw [List.head?_cons, ne_eq, Option.some.injEq, Nat.digitChar_eq_zero]
      exact hn.ne'
    · rw [List.head?_append_of_ne_nil _ Nat.toDigits_ne_nil]
      exact ih (n / 10) (by omega) (by omega)

theorem ascii_toString_zero {k : ℕ} (h : (ascii (toString k)).head? = some 48) :
    ascii (toString k) = [48] := by
  rcases Nat.eq_zero_or_pos k with rfl | hpos
  · rw [ascii_toString, Nat.toDigits_zero]
    rfl
  · rw [ascii_toString, List.head?_map] at h
    obtain ⟨c, hc, hcode⟩ := Option.map_eq_some_iff.mp h
    obtain ⟨hlow, hhigh⟩ := toNat_digit
      (Nat.isDigit_of_mem_toDigits (by decide) (by decide) (List.mem_of_mem_head? hc))
    have hnat := congrArg UInt8.toNat hcode
    rw [UInt8.toNat_ofNat', Nat.mod_eq_of_lt (by omega)] at hnat
    have hzero : c = '0' := Char.toNat_inj.mp hnat
    rw [hzero] at hc
    exact absurd hc (head_toDigits hpos)

theorem isJson_digits (minus : Bool) (k : ℕ) :
    IsJson ((if minus then [0x2D] else []) ++ ascii (toString k)) := by
  have hnumber := @isJson_number ⟨minus, ascii (toString k), none, none⟩
    ⟨ascii_toString_ne_nil k, isDigits_ascii k, ascii_toString_zero, nofun, nofun⟩
  simpa [Number.text] using hnumber

theorem isJson_signedText (n : Int8) : IsJson (signedText n) := by
  have hdigits := isJson_digits (decide (n < 0)) n.toInt.natAbs
  simpa [signedText] using hdigits

/-! ## Networks -/

theorem isJson_networkText (s : ScanStation) : IsJson (networkText s) := by
  refine isJson_object ?_
  simp only [networkMembers, List.forall_mem_cons]
  refine ⟨isJson_quotedText _, isJson_signedText _, ?_, isJson_quotedText _, by simp⟩
  exact isJson_digits false s.channel.toNat

/-- Whatever is listed, the text is an object. -/
theorem isJson_scanText (status : ScanStatus) (stations : List ScanStation) :
    IsJson (scanText status stations) := by
  refine isJson_object ?_
  simp only [List.forall_mem_cons]
  refine ⟨isJson_quotedText _, .array ?_, by simp⟩
  rw [List.forall_mem_map]
  exact fun s _ => isJson_networkText s

/-! ## One run over the text -/

theorem quoted_eq (s : List UInt8) : quoted s = quotedText s := by
  have hescape : ∀ k < 32, (UInt8.ofNat k &&& 0x1F) = UInt8.ofNat k := by decide
  have hchar (c : UInt8) : Settings.escapeByte c = (charOf c).text := by
    unfold Settings.escapeByte charOf
    split_ifs with hspecial hlow
    · rfl
    · have hc := hescape c.toNat (UInt8.lt_iff_toNat_lt.mp hlow)
      rw [UInt8.ofNat_toNat] at hc
      rw [Writer.unicodeEscape, hc]
      rfl
    · rfl
  rw [quoted, quotedText, stringText, charsText, List.flatMap_map]
  congr 2
  exact List.flatMap_congr fun c _ => hchar c

/-- A member of an object, for the writer. -/
def memberOf (m : List UInt8 × List UInt8) : Settings.Member := ⟨m.1, m.2, id⟩

theorem text_memberOf (m : List UInt8 × List UInt8) :
    (memberOf m).text = stringText (m.1.map charOf) ++ colon :: m.2 := by
  rw [Settings.Member.text, memberOf, quoted_eq]
  rfl

theorem objectOf_cons (m : List UInt8 × List UInt8) (ms : List (List UInt8 × List UInt8)) :
    objectOf (m :: ms) = openBrace :: ((memberOf m).text ++
      ((ms.map memberOf).flatMap (fun m => comma :: m.text) ++ [closeBrace])) := by
  rw [objectOf, objectText, List.map_map, List.map_cons, intercalate_cons, List.flatMap_map,
    List.flatMap_map, text_memberOf]
  simp only [Function.comp_apply, text_memberOf, List.singleton_append, List.append_assoc]

section Writing

variable (w : Writer)

theorem text_setFirst (b : Bool) (s : List UInt8) :
    ({ w with first := b } : Writer).text s = { w.text s with first := b } := by
  induction s generalizing w with
  | nil => rfl
  | cons c s ih =>
    have hput : ({ w with first := b } : Writer).put c = { w.put c with first := b } := by
      unfold Writer.put
      dsimp only
      split_ifs <;> rfl
    change (({ w with first := b } : Writer).put c).text s = _
    rw [hput, ih]
    rfl

/-- An object in the text. -/
theorem object_eq (m : List UInt8 × List UInt8) (ms : List (List UInt8 × List UInt8)) :
    ((ms.map memberOf).foldl Writer.member
      ((({ w with first := true } : Writer).put openBrace).member (memberOf m))).put closeBrace =
        (w.text (objectOf (m :: ms))).notFirst := by
  rw [Writer.member_eq, Writer.first_put, if_pos rfl, Writer.members_eq, Writer.put_eq,
    Writer.put_eq, Writer.text_notFirst, ← Writer.text_append, ← Writer.text_append,
    ← Writer.text_append, text_setFirst, objectOf_cons]
  simp only [Writer.notFirst, List.nil_append, List.singleton_append]

theorem field_eq (name value : List UInt8) :
    w.field name value = w.member (memberOf (name, quotedText value)) := by
  rw [Writer.field, Writer.string_eq, quoted_eq]
  rfl

theorem fieldNumber_eq (name : List UInt8) (value : UInt32) :
    w.fieldNumber name value = w.member (memberOf (name, ascii (toString value.toNat))) := rfl

theorem key_eq (name value : List UInt8) :
    (w.key name).text value = w.member (memberOf (name, value)) := rfl

theorem cString_concat (s : List UInt8) : cString (s ++ [0]) = cString s := by
  induction s with
  | nil => rfl
  | cons c s ih =>
    unfold cString at ih ⊢
    rw [List.cons_append, List.takeWhile_cons, List.takeWhile_cons, ih]

theorem writeNetwork_eq (count : ℕ) (s : ScanStation) : writeNetwork w count s =
    (w.text ((if count ≠ 0 then [comma] else []) ++ networkText s)).notFirst := by
  have hcomma : (if count ≠ 0 then w.put comma else w) =
      w.text (if count ≠ 0 then [comma] else []) := by
    split_ifs <;> rfl
  have hobject := object_eq (if count ≠ 0 then w.put comma else w)
    (ascii "ssid", quotedText (cString s.ssid)) [(ascii "rssi", signedText s.rssi),
      (ascii "channel", ascii (toString s.channel.toNat)),
      (ascii "security", quotedText (securityName s.security))]
  rw [Writer.text_append, ← hcomma, networkText, networkMembers, ← hobject]
  simp only [writeNetwork, field_eq, fieldNumber_eq, key_eq, cString_concat, UInt8.toNat_toUInt32,
    List.map_cons, List.map_nil, List.foldl_cons, List.foldl_nil]

/-- What stands in front of the networks. -/
def header (status : ScanStatus) : List UInt8 :=
  openBrace :: ((memberOf (ascii "status", quotedText (scanStatusName status))).text ++
    (comma :: (memberOf (ascii "networks", [])).text ++ [openBracket]))

theorem writeStatus_eq (status : ScanStatus) (hfirst : w.first = true) :
    writeStatus status w = (w.text (header status)).notFirst := by
  have hstart : (w.put openBrace).first = true := by rw [Writer.first_put, hfirst]
  have hmember (v : Writer) (hv : v.first = false) : v.key (ascii "networks") =
      (v.text (comma :: (memberOf (ascii "networks", [])).text)).notFirst := by
    have hkey : v.key (ascii "networks") = v.member (memberOf (ascii "networks", [])) := rfl
    rw [hkey, Writer.member_eq, hv]
    rfl
  rw [writeStatus, field_eq, Writer.member_eq, if_pos hstart, hmember _ rfl, Writer.put_eq,
    Writer.text_notFirst, Writer.text_notFirst, Writer.text_notFirst, Writer.put_eq,
    ← Writer.text_append, ← Writer.text_append, ← Writer.text_append, header]
  simp only [Writer.notFirst, List.nil_append, List.singleton_append]

end Writing

def joined (stations : List ScanStation) : List UInt8 :=
  [comma].intercalate (stations.map networkText)

theorem scanText_eq (status : ScanStatus) (stations : List ScanStation) :
    scanText status stations = header status ++ (joined stations ++ [closeBracket, closeBrace]) := by
  have hmember (value : List UInt8) : (memberOf (ascii "networks", value)).text =
      (memberOf (ascii "networks", [])).text ++ value := by
    simp [Settings.Member.text, memberOf]
  rw [scanText, objectOf_cons, List.map_singleton, List.flatMap_singleton, hmember, header,
    arrayText]
  simp [joined]

theorem joined_concat (stations : List ScanStation) (s : ScanStation) :
    joined (stations ++ [s]) =
      joined stations ++ ((if stations.length ≠ 0 then [comma] else []) ++ networkText s) := by
  cases stations with
  | nil => simp [joined]
  | cons t stations =>
    rw [joined, joined, List.cons_append, List.map_cons, List.map_cons, intercalate_cons,
      intercalate_cons, if_pos (by simp)]
    simp

theorem length_joined_concat_le (stations : List ScanStation) (s : ScanStation) :
    (joined (stations ++ [s])).length ≤ (joined stations).length + 1 + (networkText s).length := by
  have hcomma : (if stations.length ≠ 0 then [comma] else []).length ≤ 1 := by
    split_ifs <;> simp
  rw [joined_concat, List.length_append, List.length_append]
  omega

/-! ## Room -/

section Room

variable {w : Writer}

theorem put_failed (hfailed : w.ok = false) (c : UInt8) : w.put c = w := by
  rw [Writer.put, hfailed, if_neg Bool.false_ne_true]

theorem text_failed (hfailed : w.ok = false) (s : List UInt8) : w.text s = w := by
  induction s with
  | nil => rfl
  | cons c s ih =>
    change (w.put c).text s = w
    rw [put_failed hfailed, ih]

/-- A text that does not fit fails. -/
theorem text_overflow {s : List UInt8} (hne : s ≠ []) (hlong : w.size ≤ w.used + s.length) :
    (w.text s).ok = false := by
  induction s generalizing w with
  | nil => exact absurd rfl hne
  | cons c s ih =>
    rw [List.length_cons] at hlong
    change ((w.put c).text s).ok = false
    by_cases hok : w.ok = true
    · by_cases hroom : w.used + 1 ≥ w.size
      · rw [Writer.put, if_pos hok, if_pos hroom, text_failed rfl]
      · have hput : w.put c = { w with buf := writeAt w.buf w.used [c], used := w.used + 1 } := by
          rw [Writer.put, if_pos hok, if_neg hroom]
        rw [hput]
        refine ih (fun hnil => ?_) (by dsimp only; omega)
        rw [hnil, List.length_nil] at hlong
        omega
    · have hfailed : w.ok = false := by simpa using hok
      rw [put_failed hfailed, text_failed hfailed, hfailed]

/-- The memory behind the buffer is as it was. -/
structure Inside (buf : List UInt8) (w : Writer) : Prop where
  length : w.buf.length = buf.length
  behind : w.buf.drop w.size = buf.drop w.size

theorem Inside.text {buf : List UInt8} (h : Inside buf w) (hbuf : w.size ≤ buf.length)
    (s : List UInt8) : Inside buf (w.text s) ∧ (w.text s).size = w.size := by
  induction s generalizing w with
  | nil => exact ⟨h, rfl⟩
  | cons c s ih =>
    have hput : Inside buf (w.put c) ∧ (w.put c).size = w.size := by
      unfold Writer.put
      split_ifs with hok hroom
      · exact ⟨⟨h.length, h.behind⟩, rfl⟩
      · have hlen := h.length
        refine ⟨⟨?_, ?_⟩, rfl⟩
        · rw [length_writeAt_of_le (by rw [List.length_singleton]; omega), h.length]
        · dsimp only
          rw [drop_writeAt (by rw [List.length_singleton]; omega) (by omega), h.behind]
      · exact ⟨h, rfl⟩
    obtain ⟨hinside, hsize⟩ := ih hput.1 (by rw [hput.2]; exact hbuf)
    exact ⟨hinside, hsize.trans hput.2⟩

end Room

theorem length_securityName_le (security : StationSecurity) :
    (securityName security).length ≤ 4 := by
  cases security <;> decide

/-- The worst case for one network, with the comma in front of it. -/
theorem length_networkText_lt {s : ScanStation} (hssid : s.ssid.length ≤ scanSsidMax) :
    (networkText s).length + 3 < scanEntryMax := by
  have hname : (cString s.ssid).length ≤ s.ssid.length := (List.takeWhile_prefix _).length_le
  have hquoted := Settings.length_quoted_le (cString s.ssid)
  have hsecurity := Settings.length_quoted_le (securityName s.security)
  have hsecurity' := length_securityName_le s.security
  have hchannel := length_ascii_toString s.channel.toNat_lt
  have hrssi : (signedText s.rssi).length ≤ 4 := by
    have hlow : -128 ≤ s.rssi.toInt := s.rssi.le_toInt
    have hhigh : s.rssi.toInt ≤ 127 := s.rssi.toInt_le
    have hdigits := length_ascii_toString (k := s.rssi.toInt.natAbs) (by omega)
    rw [signedText, List.length_append]
    split_ifs
    · rw [List.length_singleton]
      omega
    · rw [List.length_nil]
      omega
  have hkeys : (quoted (ascii "ssid")).length + (quoted (ascii "rssi")).length +
      (quoted (ascii "channel")).length + (quoted (ascii "security")).length = 31 := by decide
  rw [quoted_eq] at hquoted hsecurity
  rw [networkText, networkMembers, objectOf_cons]
  simp only [List.map_cons, List.map_nil, List.flatMap_cons, List.flatMap_nil,
    Settings.Member.text, memberOf, List.length_cons, List.length_append, List.length_nil,
    scanEntryMax]
  omega

/-! ## The networks -/

def signal (s : ScanStation) : ℤ := s.rssi.toInt

def isNamed (ssid : List UInt8) : Bool := ssid ≠ []

/-- For each name the station that was heard strongest, and first of those, strongest first. -/
def Networks (stations ranked : List ScanStation) : Prop :=
  Ranking signal ScanStation.ssid isNamed stations ranked

/-- The first stations of the ranking. -/
def strongest (stations : List ScanStation) (n : ℕ) : List ScanStation :=
  select signal ScanStation.ssid isNamed stations n []

theorem bestStation_eq (taken stations : List ScanStation) : bestStation taken stations =
    firstBest signal (unseen ScanStation.ssid isNamed taken) stations := by
  have hunseen (s : ScanStation) : unseen ScanStation.ssid isNamed taken s =
      (isNamed s.ssid && !taken.any fun t => sameSsid s t) := by
    rw [unseen, List.not_any_eq_all_not]
    congr 2
    funext t
    rw [sameSsid, ← decide_not]
    exact decide_eq_decide.mpr ne_comm
  unfold bestStation firstBest
  congr 1
  funext best s
  have hstronger : (best.all fun b => decide (s.rssi > b.rssi)) =
      best.all fun b => decide (signal b < signal s) := by
    congr 1
    funext b
    exact decide_eq_decide.mpr Int8.lt_iff_toInt_lt
  rw [hunseen, hstronger]
  by_cases hempty : s.ssid = []
  · simp [hempty, isNamed]
  · simp [hempty, isNamed]

section Run

variable {status : ScanStatus} {stations : List ScanStation} {buf : List UInt8} {size : ℕ}

/-- The writer after a text. -/
def written (buf : List UInt8) (size : ℕ) (s : List UInt8) : Writer :=
  ((⟨buf, size, 0, true, true⟩ : Writer).text s).notFirst

theorem written_append (s t : List UInt8) :
    ((written buf size s).text t).notFirst = written buf size (s ++ t) := by
  rw [written, Writer.text_notFirst, ← Writer.text_append]
  rfl

theorem written_fits (hbuf : size ≤ buf.length) {s : List UInt8} (hfits : s.length < size) :
    written buf size s = ⟨writeAt buf 0 s, size, s.length, true, false⟩ := by
  have hspec := Writer.text_spec (w := ⟨buf, size, 0, true, true⟩) rfl hbuf
    (by rwa [Nat.zero_add])
  rw [written, hspec, Nat.zero_add]
  rfl

/-- The writer has not failed exactly if the text fits with a NUL. -/
theorem ok_written (hbuf : size ≤ buf.length) {s : List UInt8} (hne : s ≠ []) :
    (written buf size s).ok = true ↔ s.length < size := by
  constructor
  · intro hok
    by_contra hlong
    have hfailed := text_overflow (w := ⟨buf, size, 0, true, true⟩) hne
      (by rw [Nat.zero_add]; exact not_lt.mp hlong)
    exact absurd (hfailed.symm.trans hok) Bool.false_ne_true
  · intro hfits
    rw [written_fits hbuf hfits]

theorem header_ne_nil (s : List UInt8) : header status ++ s ≠ [] := List.cons_ne_nil _ _

/-- The loop takes stations in the order of the ranking, and leaves room for the end. -/
theorem writeNetworks_spec (hstations : ∀ s ∈ stations, s.ssid.length ≤ scanSsidMax)
    (hbuf : size ≤ buf.length) (room : ℕ) (taken : List ScanStation) :
    ∃ k ≤ room, ∃ l, l = select signal ScanStation.ssid isNamed stations k taken ∧
      writeNetworks stations room (written buf size (header status ++ joined taken)) taken =
        (written buf size (header status ++ joined l), l) ∧
      (l = taken ∨ (header status ++ joined l).length + 2 < size) := by
  induction room generalizing taken with
  | zero => exact ⟨0, le_rfl, taken, rfl, rfl, .inl rfl⟩
  | succ room ih =>
    rw [writeNetworks]
    split_ifs with hroom
    · cases hbest : bestStation taken stations with
      | none => exact ⟨0, Nat.zero_le _, taken, rfl, rfl, .inl rfl⟩
      | some best =>
        have hfits := (ok_written hbuf (header_ne_nil _)).mp hroom.1
        have hleft := hroom.2
        rw [written_fits hbuf hfits] at hleft
        dsimp only at hleft
        rw [bestStation_eq] at hbest
        have hentry := length_networkText_lt (hstations best (mem_of_firstBest hbest))
        obtain ⟨k, hk, l, hl, hrun, hend⟩ := ih (taken ++ [best])
        refine ⟨k + 1, Nat.succ_le_succ hk, l, ?_, ?_, .inr ?_⟩
        · rw [select, hbest]
          exact hl
        · rw [joined_concat, ← List.append_assoc, ← written_append] at hrun
          dsimp only
          rw [writeNetwork_eq, hrun]
        · rcases hend with rfl | hend
          · have hjoined := length_joined_concat_le taken best
            rw [List.length_append] at hleft ⊢
            omega
          · exact hend
    · exact ⟨0, Nat.zero_le _, taken, rfl, rfl, .inl rfl⟩

theorem writeStatus_start (status : ScanStatus) (buf : List UInt8) (size : ℕ) :
    writeStatus status ⟨buf, size, 0, true, true⟩ = written buf size (header status ++ joined []) := by
  rw [writeStatus_eq _ _ rfl, joined, List.map_nil, List.intercalate_nil, List.append_nil]
  rfl

/-- What is listed is the front of the ranking, and there is room for it unless it is nothing. -/
theorem listed_spec (status : ScanStatus) (hstations : ∀ s ∈ stations, s.ssid.length ≤ scanSsidMax)
    (hbuf : size ≤ buf.length) :
    (∃ k ≤ scanNetworksMax, listed status stations buf size = strongest stations k) ∧
      (listed status stations buf size = [] ∨
        (scanText status (listed status stations buf size)).length < size) := by
  obtain ⟨k, hk, l, hl, hrun, hend⟩ :=
    writeNetworks_spec hstations hbuf scanNetworksMax []
  have hlisted : listed status stations buf size = l := by
    rw [listed, writeStatus_start, hrun]
  rw [hlisted]
  refine ⟨⟨k, hk, hl⟩, hend.imp_right fun hfits => ?_⟩
  rw [scanText_eq, ← List.append_assoc, List.length_append]
  exact hfits

theorem scanToJson_eq (status : ScanStatus)
    (hstations : ∀ s ∈ stations, s.ssid.length ≤ scanSsidMax) (hbuf : size ≤ buf.length) :
    scanToJson status stations buf size =
      let w := written buf size (scanText status (listed status stations buf size))
      if w.ok then (w.used, writeAt w.buf w.used [0]) else (0, w.buf) := by
  obtain ⟨k, -, l, -, hrun, -⟩ :=
    writeNetworks_spec hstations hbuf scanNetworksMax []
  have hlisted : listed status stations buf size = l := by
    rw [listed, writeStatus_start, hrun]
  have hclose : (((written buf size (header status ++ joined l)).put closeBracket).put closeBrace) =
      written buf size (scanText status l) := by
    rw [Writer.put_eq, Writer.put_eq, ← Writer.text_append, List.singleton_append, written,
      Writer.text_notFirst, ← Writer.text_append, scanText_eq, ← List.append_assoc, written]
  rw [hlisted, scanToJson, writeStatus_start, hrun]
  dsimp only
  rw [hclose]

/-- A text that fits is in front of its NUL in the buffer, and otherwise the memory behind the buffer
is still as it was. -/
theorem scanToJson_memory (status : ScanStatus)
    (hstations : ∀ s ∈ stations, s.ssid.length ≤ scanSsidMax) (hbuf : size ≤ buf.length) :
    let text := scanText status (listed status stations buf size)
    (text.length < size ∧
        scanToJson status stations buf size = (text.length, writeAt buf 0 (text ++ [0]))) ∨
      (size ≤ text.length ∧ ∃ mem, scanToJson status stations buf size = (0, mem) ∧
        mem.length = buf.length ∧ mem.drop size = buf.drop size) := by
  have hne : scanText status (listed status stations buf size) ≠ [] := by
    rw [scanText_eq]
    exact header_ne_nil _
  rw [scanToJson_eq status hstations hbuf]
  generalize scanText status (listed status stations buf size) = text at hne ⊢
  dsimp only
  by_cases hfits : text.length < size
  · refine .inl ⟨hfits, ?_⟩
    have hjoin := writeAt_writeAt (l := buf) (a := text) (b := [0]) (Nat.zero_le _)
    rw [Nat.zero_add] at hjoin
    rw [if_pos ((ok_written hbuf hne).mpr hfits), written_fits hbuf hfits, hjoin]
  · refine .inr ⟨not_lt.mp hfits, _, if_neg fun hok => hfits ((ok_written hbuf hne).mp hok), ?_⟩
    have hstart : Inside buf ⟨buf, size, 0, true, true⟩ := ⟨rfl, rfl⟩
    obtain ⟨hinside, hsize⟩ := hstart.text hbuf text
    have hbehind := hinside.behind
    rw [hsize] at hbehind
    exact ⟨hinside.length, hbehind⟩

/-- What the memory and the length are when the writer is done. -/
structure Lists (status : ScanStatus) (stations : List ScanStation) (buf : List UInt8) (size : ℕ)
    (length : ℕ) (mem : List UInt8) : Prop where
  within : mem.length = buf.length ∧ mem.drop size = buf.drop size
  small : length = 0 → size ≤ (scanText status []).length
  text : length ≠ 0 → ∃ ranked, Networks stations ranked ∧ ∃ n ≤ scanNetworksMax,
    mem.take (length + 1) = scanText status (ranked.take n) ++ [0] ∧ length < size ∧
      IsJson (mem.take length)

/-- The text of a scan, for a buffer of any size. -/
theorem scan_lists_strongest (status : ScanStatus)
    (hstations : ∀ s ∈ stations, s.ssid.length ≤ scanSsidMax) (hbuf : size ≤ buf.length) :
    Lists status stations buf size (scanToJson status stations buf size).1
      (scanToJson status stations buf size).2 := by
  obtain ⟨⟨k, hk, hstrongest⟩, hroom⟩ := listed_spec status hstations hbuf
  obtain ⟨ranked, hranked, htake⟩ := exists_ranking signal ScanStation.ssid isNamed stations
  have hlisted : listed status stations buf size = ranked.take k := hstrongest.trans (htake k)
  rcases scanToJson_memory status hstations hbuf with ⟨hfits, heq⟩ | ⟨hlong, mem, heq, hmem⟩
  · have hlen : 0 + (scanText status (listed status stations buf size) ++ [0]).length ≤ size := by
      rw [List.length_append, List.length_singleton]
      omega
    have hpos : 0 < (scanText status (listed status stations buf size)).length := by
      rw [scanText_eq]
      exact Nat.succ_pos _
    rw [heq]
    refine ⟨⟨length_writeAt_of_le (hlen.trans hbuf), drop_writeAt hlen hbuf⟩,
      fun hzero => absurd hzero hpos.ne', fun _ => ⟨ranked, hranked, k, hk, ?_, hfits, ?_⟩⟩
    · rw [← hlisted, writeAt_front]
      exact List.take_left' (by rw [List.length_append, List.length_singleton])
    · rw [writeAt_front, List.append_assoc, List.take_left]
      exact isJson_scanText _ _
  · rw [heq]
    refine ⟨hmem, fun _ => ?_, fun hne => absurd rfl hne⟩
    rw [hroom.resolve_right (by omega)] at hlong
    exact hlong

end Run

/-- A network on channel 6. -/
def station (ssid : List UInt8) (rssi : Int8) : ScanStation where
  bssid := [0x02, 0, 0, 0, 0, 1]
  channel := 6
  rssi := rssi
  security := .wpa2
  beaconInt := 100
  ssid := ssid

/-- One name twice, and a strong network without a name. -/
def nearby : List ScanStation := [station (ascii "cafe") (-70), station (ascii "home") (-60),
  station [] (-30), station (ascii "cafe") (-50)]

theorem scan_lists_strongest_nearby :
    Lists .ok nearby (List.replicate 400 0) 400
      (scanToJson .ok nearby (List.replicate 400 0) 400).1
      (scanToJson .ok nearby (List.replicate 400 0) 400).2 ∧
    (scanToJson .ok nearby (List.replicate 400 0) 400).1 ≠ 0 ∧
    listed .ok nearby (List.replicate 400 0) 400 =
      [station (ascii "cafe") (-50), station (ascii "home") (-60)] :=
  ⟨scan_lists_strongest .ok (by decide +kernel) List.length_replicate.ge, by decide +kernel,
    by decide +kernel⟩

end BekenCam.ScanJson
