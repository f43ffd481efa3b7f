import BekenCam.ByteBuffer

/-!
# Frames of an open access point

The management frames the access point builds and reads, as functions over byte buffers. A frame
that does not fit its buffer is reported as empty. Sequence control and frame check sequence are
filled in by the hardware.
-/
namespace BekenCam.Ap

@[simp] abbrev apSsidMax : ℕ := 32
@[simp] abbrev apFrameMax : ℕ := 160

/-- `ssid` is the used part of the array. -/
structure ApBss where
  bssid : Octets 6
  ssid : List UInt8
  channel : UInt8
  ssid_fits : ssid.length ≤ apSsidMax

/-! ## Writing -/

/-- `data` is what was written to the buffer of `cap` bytes so far. -/
structure Writer where
  data : List UInt8
  cap : ℕ
  ok : Bool

def start (cap : ℕ) : Writer := ⟨[], cap, true⟩

def put (w : Writer) (src : List UInt8) : Writer :=
  if w.data.length + src.length > w.cap then { w with ok := false }
  else { w with data := w.data ++ src }

def put8 (w : Writer) (v : UInt8) : Writer := put w [v]

def put16 (w : Writer) (v : UInt16) : Writer := put w [v.toUInt8, (v >>> 8).toUInt8]

def putIe (w : Writer) (id : UInt8) (src : List UInt8) : Writer :=
  put (put8 (put8 w id) (UInt8.ofNat src.length)) src

def finish (w : Writer) : List UInt8 := if w.ok then w.data else []

def kRates : List UInt8 := [0x82, 0x84, 0x8b, 0x96, 0x0c, 0x12, 0x18, 0x24]
def kExtRates : List UInt8 := [0x30, 0x48, 0x60, 0x6c]

/-- Count, period, bitmap control and bitmap. -/
def kTim : List UInt8 := [0, 1, 0, 0]

def kBcast : Octets 6 := ⟨List.replicate 6 0xFF, rfl⟩

@[simp] abbrev capability : UInt16 := 0x0421
@[simp] abbrev beaconIntervalTu : UInt16 := 100

/-- Frame control and flags, duration, three addresses, sequence control. -/
def putHeader (w : Writer) (typeSubtype : UInt8) (da : Octets 6) (bss : ApBss) : Writer :=
  let w := put16 (put8 (put8 w typeSubtype) 0) 0
  put16 (put (put (put w da.val) bss.bssid.val) bss.bssid.val) 0

/-- What a beacon and a probe response share after the fixed fields, and where the TIM is. -/
def putBssIes (w : Writer) (bss : ApBss) (withTim : Bool) : Writer × ℕ :=
  let w := putIe w 0 bss.ssid
  let w := putIe w 1 kRates
  let w := putIe w 3 [bss.channel]
  let timOft := w.data.length
  let w := if withTim then putIe w 5 kTim else w
  let w := putIe w 42 [0]
  (putIe w 50 kExtRates, timOft)

def putBssFixed (w : Writer) : Writer :=
  put16 (put16 (put w (List.replicate 8 0)) beaconIntervalTu) capability

/-- The template, the offset of its TIM element and that element's length. -/
def apBuildBeacon (bss : ApBss) (cap : ℕ) : List UInt8 × ℕ × ℕ :=
  let (w, timOft) := putBssIes (putBssFixed (putHeader (start cap) 0x80 kBcast bss)) bss true
  (finish w, timOft, 2 + kTim.length)

def apBuildProbeResp (bss : ApBss) (da : Octets 6) (cap : ℕ) : List UInt8 :=
  finish (putBssIes (putBssFixed (putHeader (start cap) 0x50 da bss)) bss false).1

def apBuildAuthResp (bss : ApBss) (da : Octets 6) (alg status : UInt16) (cap : ℕ) : List UInt8 :=
  finish (put16 (put16 (put16 (putHeader (start cap) 0xB0 da bss) alg) 2) status)

def apBuildAssocResp (bss : ApBss) (da : Octets 6) (reassoc : Bool) (status aid : UInt16)
    (cap : ℕ) : List UInt8 :=
  let w := putHeader (start cap) (if reassoc then 0x30 else 0x10) da bss
  let w := put16 (put16 (put16 w capability) status) (aid ||| 0xC000)
  finish (putIe (putIe w 1 kRates) 50 kExtRates)

def apBuildDeauth (bss : ApBss) (da : Octets 6) (reason : UInt16) (cap : ℕ) : List UInt8 :=
  finish (put16 (putHeader (start cap) 0xC0 da bss) reason)

/-! ## Reading -/

inductive ApFrameKind
  | probeReq
  | auth
  | assocReq
  | reassocReq
  | disassoc
  | deauth
  deriving DecidableEq, Repr

/-- What `ap_parse` found; `ssid` is there for a probe request that has one. -/
structure ApRx where
  kind : ApFrameKind
  da : Octets 6
  sa : Octets 6
  bssid : Octets 6
  authAlg : UInt16
  authSeq : UInt16
  ssid : Option (List UInt8)
  deriving DecidableEq

@[simp] abbrev headerLen : ℕ := 24

def rd16 (p : List UInt8) : UInt16 := (p.getD 0 0).toUInt16 ||| ((p.getD 1 0).toUInt16 <<< 8)

/-- The elements of a probe request from offset `i` on; the first SSID is kept. The answer is
`none` for an element that runs past the end and for an SSID that is too long. -/
def parseProbeIes (f : List UInt8) (i : ℕ) (ssid : Option (List UInt8)) :
    Option (Option (List UInt8)) :=
  if i < f.length then
    if i + 2 > f.length then none
    else
      let id := f.getD i 0
      let n := (f.getD (i + 1) 0).toNat
      if i + 2 + n > f.length then none
      else if id = 0 ∧ ssid = none then
        if n > apSsidMax then none
        else parseProbeIes f (i + 2 + n) (some (slice f (i + 2) n))
      else parseProbeIes f (i + 2 + n) ssid
  else some ssid
termination_by f.length - i
decreasing_by all_goals omega

/-- A frame of a kind that carries nothing the access point reads behind `need` bytes. -/
def bareFrame (rx : ApRx) (f : List UInt8) (kind : ApFrameKind) (need : ℕ) : Option ApRx :=
  if f.length < headerLen + need then none else some { rx with kind := kind }

def apParse (f : List UInt8) : Option ApRx :=
  if h : f.length < headerLen then none
  else if f.getD 0 0 &&& 0x0F ≠ 0 then none
  else
    let rx : ApRx :=
      { kind := .probeReq
        da := ⟨slice f 4 6, length_slice_of_le (by simp only [headerLen] at h; omega)⟩
        sa := ⟨slice f 10 6, length_slice_of_le (by simp only [headerLen] at h; omega)⟩
        bssid := ⟨slice f 16 6, length_slice_of_le (by simp only [headerLen] at h; omega)⟩
        authAlg := 0
        authSeq := 0
        ssid := none }
    let subtype := f.getD 0 0 &&& 0xF0
    if subtype = 0x40 then
      (parseProbeIes f headerLen none).map fun ssid => { rx with ssid := ssid }
    else if subtype = 0xB0 then
      (bareFrame rx f .auth 6).map fun rx =>
        { rx with authAlg := rd16 (f.drop headerLen), authSeq := rd16 (f.drop (headerLen + 2)) }
    else if subtype = 0x00 then bareFrame rx f .assocReq 4
    else if subtype = 0x20 then bareFrame rx f .reassocReq 10
    else if subtype = 0xA0 then bareFrame rx f .disassoc 2
    else if subtype = 0xC0 then bareFrame rx f .deauth 2
    else none

def apProbeWanted (bss : ApBss) (rx : ApRx) : Bool :=
  match rx.ssid with
  | none => true
  | some ssid => ssid.length = 0 ∨ ssid = bss.ssid

end BekenCam.Ap
