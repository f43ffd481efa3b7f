import BekenCam.FlashKvModel

/-!
# The camera's settings

`config_load` and `config_save` over the key-value store. A field that is not stored
keeps its default; a missing or invalid address is generated and stored. The random
bytes come from outside. The messages on the console are left out.
-/
namespace BekenCam.Settings

open FlashKv

/-- Stored keys. The numbers are persistent. -/
inductive Key
  | mac
  | apSsid
  | apChannel
  | apEnabled
  | staSsid
  | staPassword
  | staEnabled
  | ledEnabled
  | telnetEnabled
  deriving DecidableEq

def Key.number : Key → UInt16
  | mac => 1
  | apSsid => 2
  | apChannel => 3
  | apEnabled => 4
  | staSsid => 5
  | staPassword => 6
  | staEnabled => 7
  | ledEnabled => 8
  | telnetEnabled => 9

@[simp] abbrev configSsidMax : ℕ := 32
@[simp] abbrev configPasswordMax : ℕ := 63

/-- The character fields are whole arrays, with whatever stands behind the terminator. -/
structure Config where
  mac : List UInt8
  apSsid : List UInt8
  apChannel : UInt8
  apEnabled : Bool
  staSsid : List UInt8
  staPassword : List UInt8
  staEnabled : Bool
  ledEnabled : Bool
  telnetEnabled : Bool
  deriving DecidableEq, Repr

/-- The arrays have their sizes, and every string ends inside its array. -/
structure Config.Terminated (g : Config) : Prop where
  mac_size : g.mac.length = 6
  apSsid_size : g.apSsid.length = configSsidMax + 1
  apSsid_terminated : 0 ∈ g.apSsid
  staSsid_size : g.staSsid.length = configSsidMax + 1
  staSsid_terminated : 0 ∈ g.staSsid
  staPassword_size : g.staPassword.length = configPasswordMax + 1
  staPassword_terminated : 0 ∈ g.staPassword

def kDefaults : Config where
  mac := List.replicate 6 0
  apSsid := List.replicate (configSsidMax + 1) 0
  apChannel := 6
  apEnabled := true
  staSsid := List.replicate (configSsidMax + 1) 0
  staPassword := List.replicate (configPasswordMax + 1) 0
  staEnabled := false
  ledEnabled := true
  telnetEnabled := true

def configMacIsValid (mac : List UInt8) : Bool :=
  mac.getD 0 0 &&& 0x01 = 0 ∧ mac ≠ List.replicate 6 0

def bekenOui : List UInt8 := [0xC8, 0x47, 0x8C]

/-- `entropy` is what `get_random_bytes` delivers; the last bit stays clear. -/
def generateMac (entropy : List UInt8) : List UInt8 :=
  bekenOui ++ [entropy.getD 0 0, entropy.getD 1 0, entropy.getD 2 0 &&& 0xFE]

/-- A digit of `%02x`. -/
def hexDigit (n : UInt8) : UInt8 := if n < 10 then n + 0x30 else n - 10 + 0x61

def hexByte (b : UInt8) : List UInt8 := [hexDigit (b >>> 4), hexDigit (b &&& 0x0F)]

/-- `"Beken-%02x%02x%02x"` of the last three bytes of the address. -/
def generatedSsid (mac : List UInt8) : List UInt8 :=
  [0x42, 0x65, 0x6B, 0x65, 0x6E, 0x2D] ++ hexByte (mac.getD 3 0) ++ hexByte (mac.getD 4 0) ++
    hexByte (mac.getD 5 0)

/-- `snprintf` writes the text and its terminator to the front of the array. -/
def applyGeneratedDefaults (g : Config) : Config :=
  { g with apSsid := writeAt g.apSsid 0 (generatedSsid g.mac ++ [0]) }

/-- The address: the stored one if it is valid, else a new one that is stored. -/
def loadMac (entropy : List UInt8) : FlashM (List UInt8) := do
  let (ret, mac) ← flashKvGet Key.mac.number true 6 6
  if ret = .ok 6 ∧ configMacIsValid mac then
    return mac
  else
    let mac := generateMac entropy
    let _ ← flashKvSet Key.mac.number (.bytes mac)
    return mac

def configLoad (entropy : List UInt8) (g : Config) : FlashM Config := do
  let mac ← loadMac entropy
  let g := applyGeneratedDefaults { g with mac := mac }
  let (_, apSsid) ← flashKvGetString Key.apSsid.number g.apSsid
  let (_, apChannel) ← flashKvGetU8 Key.apChannel.number g.apChannel
  let (_, apEnabled) ← flashKvGetBool Key.apEnabled.number g.apEnabled
  let (_, staSsid) ← flashKvGetString Key.staSsid.number g.staSsid
  let (_, staPassword) ← flashKvGetString Key.staPassword.number g.staPassword
  let (_, staEnabled) ← flashKvGetBool Key.staEnabled.number g.staEnabled
  let (_, telnetEnabled) ← flashKvGetBool Key.telnetEnabled.number g.telnetEnabled
  let (_, ledEnabled) ← flashKvGetBool Key.ledEnabled.number g.ledEnabled
  return ⟨g.mac, apSsid, apChannel, apEnabled, staSsid, staPassword, staEnabled, ledEnabled,
    telnetEnabled⟩

/-- The first error stays. -/
def keep (firstError err : Except Errno Unit) : Except Errno Unit :=
  match firstError with
  | .ok () => err
  | .error e => .error e

/-- Every field is tried even after a failure. -/
def keepAll (firstError : Except Errno Unit) :
    List (FlashM (Except Errno Unit)) → FlashM (Except Errno Unit)
  | [] => return firstError
  | write :: rest => do
    let err ← write
    keepAll (keep firstError err) rest

def configSave (g : Config) : FlashM (Except Errno Unit) := do
  flashUnprotect
  keepAll (.ok ()) [
    flashKvSet Key.mac.number (.bytes g.mac),
    flashKvSetString Key.apSsid.number g.apSsid,
    flashKvSetU8 Key.apChannel.number g.apChannel,
    flashKvSetBool Key.apEnabled.number g.apEnabled,
    flashKvSetString Key.staSsid.number g.staSsid,
    flashKvSetString Key.staPassword.number g.staPassword,
    flashKvSetBool Key.staEnabled.number g.staEnabled,
    flashKvSetBool Key.telnetEnabled.number g.telnetEnabled,
    flashKvSetBool Key.ledEnabled.number g.ledEnabled]

end BekenCam.Settings
