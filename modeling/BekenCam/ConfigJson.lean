import BekenCam.ConfigModel
import BekenCam.HttpRequest
import BekenCam.JsonText
import BekenCam.TextReader

/-!
# The settings as JSON

The writer puts bytes into a buffer of `size` bytes; a list that is longer than that is the memory
behind it. A string that is read comes with its NUL, as it is in the array it is read into.
-/
namespace BekenCam.Settings

open FlashKv Json ReadM
open Http (ascii)

/-! ## Writing -/

structure Writer where
  buf : List UInt8
  size : ℕ
  used : ℕ
  ok : Bool
  first : Bool

namespace Writer

def put (w : Writer) (c : UInt8) : Writer :=
  if w.ok then
    if w.used + 1 ≥ w.size then { w with ok := false }
    else { w with buf := writeAt w.buf w.used [c], used := w.used + 1 }
  else w

def text (w : Writer) (s : List UInt8) : Writer := s.foldl put w

/-- `"\\u%04x"`. -/
def unicodeEscape (c : UInt8) : List UInt8 :=
  [backslash, letterU, 0x30, 0x30] ++ hexByte (c &&& 0x1F)

def char (w : Writer) (c : UInt8) : Writer :=
  if c = quote ∨ c = backslash then (w.put backslash).put c
  else if c < 0x20 then w.text (unicodeEscape c)
  else w.put c

def string (w : Writer) (s : List UInt8) : Writer := (s.foldl char (w.put quote)).put quote

def key (w : Writer) (name : List UInt8) : Writer :=
  let w := if w.first then w else w.put comma
  (({ w with first := false } : Writer).string name).put colon

def field (w : Writer) (name value : List UInt8) : Writer := (w.key name).string value

def fieldNumber (w : Writer) (name : List UInt8) (value : UInt32) : Writer :=
  (w.key name).text (ascii (toString value.toNat))

def fieldBool (w : Writer) (name : List UInt8) (value : Bool) : Writer :=
  (w.key name).text (if value then ascii "true" else ascii "false")

end Writer

/-- `"%02x:%02x:%02x:%02x:%02x:%02x"`. -/
def macText (mac : List UInt8) : List UInt8 :=
  List.intercalate [colon] ((List.range 6).map fun i => hexByte (mac.getD i 0))

/-- The length, and the memory from the buffer on. -/
def configToJson (config : Config) (buf : List UInt8) (size : ℕ) : ℕ × List UInt8 :=
  let w : Writer := ⟨buf, size, 0, true, true⟩
  let w := w.put openBrace
  let w := w.field (ascii "mac") (macText config.mac)
  let w := w.field (ascii "ap_ssid") (cString config.apSsid)
  let w := w.fieldNumber (ascii "ap_channel") config.apChannel.toUInt32
  let w := w.fieldBool (ascii "ap_enabled") config.apEnabled
  let w := w.field (ascii "sta_ssid") (cString config.staSsid)
  let w := w.field (ascii "sta_password") (cString config.staPassword)
  let w := w.fieldBool (ascii "sta_enabled") config.staEnabled
  let w := w.fieldBool (ascii "led_enabled") config.ledEnabled
  let w := w.fieldBool (ascii "telnet_enabled") config.telnetEnabled
  let w := w.put closeBrace
  if w.ok then (w.used, writeAt w.buf w.used [0]) else (0, w.buf)

/-! ## Reading -/

def skipSpace : ReadM Unit := fun r => (some (), r.dropWhile isSpace)

def consume (c : UInt8) : ReadM Bool := fun r =>
  match r.dropWhile isSpace with
  | b :: rest => if b = c then (some true, rest) else (some false, b :: rest)
  | [] => (some false, [])

/-- The escapes of one letter. -/
def shortEscape (c : UInt8) : Option UInt8 :=
  if c = quote ∨ c = backslash ∨ c = 47 then some c
  else if c = 98 ∨ c = 102 ∨ c = 110 ∨ c = 114 ∨ c = 116 then some (unescape c)
  else none

/-- Only ASCII: a string field holds bytes, not code points. -/
def unicodeByte (a b c d : UInt8) : Option UInt8 := do
  let a ← hexValue a
  let b ← hexValue b
  let c ← hexValue c
  let d ← hexValue d
  let code := ((a.toNat * 16 + b.toNat) * 16 + c.toNat) * 16 + d.toNat
  if code = 0 ∨ code ≥ 0x80 then none else some (UInt8.ofNat code)

/-- With no size the string is only skipped. -/
def keepChar (size : Option ℕ) (out : List UInt8) (c : UInt8) : Option (List UInt8) :=
  match size with
  | none => some out
  | some size => if out.length + 1 ≥ size then none else some (out ++ [c])

/-- Behind the opening quote. Where a bad string ends is not looked at. -/
def readChars (size : Option ℕ) (out : List UInt8) : ReadM (List UInt8)
  | [] => (none, [])
  | c :: r =>
    if c = quote then (some (out ++ [0]), r)
    else if c < 0x20 then (none, r)
    else if c = backslash then
      match r with
      | [] => (none, [])
      | e :: r =>
        if e = letterU then
          match r with
          | h1 :: h2 :: h3 :: h4 :: r =>
            match (unicodeByte h1 h2 h3 h4).bind (keepChar size out) with
            | some out => readChars size out r
            | none => (none, r)
          | r => (none, r)
        else
          match (shortEscape e).bind (keepChar size out) with
          | some out => readChars size out r
          | none => (none, r)
    else
      match keepChar size out c with
      | some out => readChars size out r
      | none => (none, r)

def readString (size : Option ℕ) : ReadM (List UInt8) := do
  if ← consume quote then readChars size [] else failure

def isDigit (c : UInt8) : Bool := 0x30 ≤ c ∧ c ≤ 0x39

def readDigits (result : UInt32) (digits : ℕ) : ReadM (UInt32 × ℕ)
  | [] => (some (result, digits), [])
  | c :: r =>
    if isDigit c then
      if digits + 1 > 9 then (none, c :: r)
      else readDigits (result * 10 + (c - 0x30).toUInt32) (digits + 1) r
    else (some (result, digits), c :: r)

def readNumber : ReadM UInt32 := do
  skipSpace
  let (result, digits) ← readDigits 0 0
  if digits = 0 then failure else return result

def readPrefix (word : List UInt8) : ReadM Unit := fun r =>
  if word.isPrefixOf r then (some (), r.drop word.length) else (none, r)

def readWord (word : List UInt8) : ReadM Unit := do
  skipSpace
  readPrefix word

def readBool : ReadM Bool :=
  (do readWord (ascii "true"); return true) <|> (do readWord (ascii "false"); return false)

/-- Two digits of the text, with a colon behind them unless they are the last. -/
def macByte (text : List UInt8) (i : ℕ) : Option UInt8 := do
  let high ← hexValue (text.getD (i * 3) 0)
  let low ← hexValue (text.getD (i * 3 + 1) 0)
  if i < 5 ∧ text.getD (i * 3 + 2) 0 ≠ colon then none else some (high * 16 + low)

def readMac : ReadM (List UInt8) := do
  let text ← readString (some 18)
  if (cString text).length ≠ 17 then failure
  else
    match (List.range 6).mapM (macByte text) with
    | some mac => return mac
    | none => failure

/-- A value of a key the config does not have: a string, a number, a bool or null. -/
def skipValue : ReadM Unit := do
  skipSpace
  let quoted ← (fun r => (some (r.head? == some quote), r) : ReadM Bool)
  if quoted then do
    let _ ← readString none
  else
    (do let _ ← readNumber) <|> (do let _ ← readBool) <|> readWord (ascii "null")

def readField (key : List UInt8) (config : Config) : ReadM Config :=
  if key = ascii "mac" then do
    return { config with mac := ← readMac }
  else if key = ascii "ap_ssid" then do
    let text ← readString (some (configSsidMax + 1))
    return { config with apSsid := writeAt config.apSsid 0 text }
  else if key = ascii "ap_channel" then do
    let channel ← readNumber
    if channel > 255 then failure else return { config with apChannel := channel.toUInt8 }
  else if key = ascii "ap_enabled" then do
    return { config with apEnabled := ← readBool }
  else if key = ascii "sta_ssid" then do
    let text ← readString (some (configSsidMax + 1))
    return { config with staSsid := writeAt config.staSsid 0 text }
  else if key = ascii "sta_password" then do
    let text ← readString (some (configPasswordMax + 1))
    return { config with staPassword := writeAt config.staPassword 0 text }
  else if key = ascii "sta_enabled" then do
    return { config with staEnabled := ← readBool }
  else if key = ascii "led_enabled" then do
    return { config with ledEnabled := ← readBool }
  else if key = ascii "telnet_enabled" then do
    return { config with telnetEnabled := ← readBool }
  else do
    skipValue
    return config

/-- Ranges that the radio would refuse later. -/
def isValid (config : Config) : Bool :=
  if !configMacIsValid config.mac then false
  else if config.apSsid.headD 0 = 0 then false
  else if config.apChannel < 1 ∨ config.apChannel > 14 then false
  else
    let passwordLen := (cString config.staPassword).length
    passwordLen = 0 ∨ passwordLen ≥ 8

theorem isValid_iff {config : Config} : isValid config = true ↔
    configMacIsValid config.mac = true ∧ config.apSsid.headD 0 ≠ 0 ∧
      (1 ≤ config.apChannel ∧ config.apChannel ≤ 14) ∧
        ((cString config.staPassword).length = 0 ∨ 8 ≤ (cString config.staPassword).length) := by
  unfold isValid
  split_ifs with hmac hname hchannel
  · rw [Bool.not_eq_true'] at hmac
    exact ⟨nofun, fun h => absurd (hmac.symm.trans h.1) nofun⟩
  · exact ⟨nofun, fun h => absurd hname h.2.1⟩
  · refine ⟨nofun, fun h => ?_⟩
    rcases hchannel with hlow | hhigh
    · exact absurd hlow (UInt8.not_lt.mpr h.2.2.1.1)
    · exact absurd hhigh (UInt8.not_lt.mpr h.2.2.1.2)
  · rw [not_or, UInt8.not_lt, UInt8.not_lt] at hchannel
    rw [Bool.not_eq_true', Bool.not_eq_false] at hmac
    simp only [decide_eq_true_eq]
    exact ⟨fun h => ⟨hmac, hname, hchannel, h⟩, fun h => h.2.2.2⟩

theorem headD_eq_zero_iff (l : List UInt8) : l.headD 0 = 0 ↔ cString l = [] := by
  cases l with
  | nil => exact ⟨fun _ => rfl, fun _ => rfl⟩
  | cons b l =>
    rw [cString, List.takeWhile_cons]
    by_cases hb : b = 0
    · simp [hb]
    · simp [hb]

def readMember (config : Config) : ReadM Config := do
  let key ← readString (some 24)
  if ← consume colon then readField (cString key) config else failure

/-- The fuel is for the members; each takes at least one byte. -/
def readMembers : ℕ → Config → ReadM Config
  | 0, _ => failure
  | fuel + 1, config => do
    let config ← readMember config
    if ← consume comma then readMembers fuel config else return config

def readObject (fuel : ℕ) (config : Config) : ReadM Config := do
  if ← consume openBrace then
    if ← consume closeBrace then
      skipSpace
      return config
    else
      let next ← readMembers fuel config
      if ← consume closeBrace then
        skipSpace
        return next
      else failure
  else failure

/-- `config` stays as it is when there is no result. -/
def configFromJson (json : List UInt8) (config : Config) : Option Config :=
  match readObject json.length config json with
  | (some next, []) => if isValid next then some next else none
  | _ => none

theorem configFromJson_eq_some {json : List UInt8} {config next : Config} :
    configFromJson json config = some next ↔
      Takes (readObject json.length config) json next [] ∧ isValid next = true := by
  unfold configFromJson Takes
  rcases readObject json.length config json with ⟨_ | next', _ | ⟨b, r⟩⟩
  · simp
  · simp
  · simp only [Option.ite_none_right_eq_some, Option.some.injEq, Prod.mk.injEq, and_true]
    constructor
    · rintro ⟨hvalid, rfl⟩
      exact ⟨rfl, hvalid⟩
    · rintro ⟨rfl, hvalid⟩
      exact ⟨hvalid, rfl⟩
  · simp

end BekenCam.Settings
