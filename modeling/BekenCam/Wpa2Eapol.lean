import BekenCam.Wpa2Sha1

/-!
# EAPOL-Key frames

Frames start at the 802.1X header: version, packet type, a two-byte body length, then the
key descriptor. `KeyFrame` is the layout of the standard. The code's parser, builder and
MIC check are related to it, with any link padding behind the frame.
-/
namespace BekenCam.Wpa2

/-! ## Constants -/

@[simp] abbrev keyInfoVersionMask : UInt16 := 0x0007
@[simp] abbrev keyInfoPairwise : UInt16 := 0x0008
@[simp] abbrev keyInfoInstall : UInt16 := 0x0040
@[simp] abbrev keyInfoAck : UInt16 := 0x0080
@[simp] abbrev keyInfoMic : UInt16 := 0x0100
@[simp] abbrev keyInfoSecure : UInt16 := 0x0200
@[simp] abbrev keyInfoEncrypted : UInt16 := 0x1000

@[simp] abbrev keyInfoMsg2 : UInt16 := 0x010A
@[simp] abbrev keyInfoMsg4 : UInt16 := 0x030A
@[simp] abbrev keyInfoGroupMsg2 : UInt16 := 0x0302

@[simp] abbrev wpa2EapolHeaderLen : ℕ := 4
@[simp] abbrev wpa2EapolKeyFixed : ℕ := 99
@[simp] abbrev wpa2EapolMicOffset : ℕ := 81
@[simp] abbrev wpa2EapolMicLen : ℕ := 16

def wpa2RsnIe : List UInt8 :=
  [0x30, 0x14, 0x01, 0x00, 0x00, 0x0F, 0xAC, 0x04, 0x01, 0x00, 0x00,
    0x0F, 0xAC, 0x04, 0x01, 0x00, 0x00, 0x0F, 0xAC, 0x02, 0x00, 0x00]

/-! ## The code -/

def be16 (p : List UInt8) (off : ℕ) : UInt16 :=
  ((p.getD off 0).toUInt16 <<< 8) ||| (p.getD (off + 1) 0).toUInt16

/-- A parsed frame. The pointers of the source are the bytes they point to. -/
structure EapolKey where
  keyInfo : UInt16
  keyLength : UInt16
  replay : Octets 8
  nonce : Octets 32
  keyData : List UInt8
  frameLen : ℕ
  deriving DecidableEq

def wpa2EapolParse (frame : List UInt8) : Option EapolKey :=
  if hlen : frame.length < wpa2EapolKeyFixed then none
  else if frame.getD 1 0 ≠ 3 then none
  else if frame.getD 4 0 ≠ 2 then none
  else
    let total := wpa2EapolHeaderLen + (be16 frame 2).toNat
    let kdl := (be16 frame 97).toNat
    if total < wpa2EapolKeyFixed ∨ total > frame.length then none
    else if wpa2EapolKeyFixed + kdl > total then none
    else some
      { keyInfo := be16 frame 5
        keyLength := be16 frame 7
        replay := ⟨slice frame 9 8,
          length_slice_of_le (le_trans (by decide) (Nat.le_of_not_lt hlen))⟩
        nonce := ⟨slice frame 17 32,
          length_slice_of_le (le_trans (by decide) (Nat.le_of_not_lt hlen))⟩
        keyData := slice frame wpa2EapolKeyFixed kdl
        frameLen := total }

/-- The two bytes of a 16-bit number, the high one first. -/
def be16Bytes (n : ℕ) : List UInt8 := [UInt8.ofNat (n >>> 8), UInt8.ofNat n]

@[simp] theorem length_be16Bytes (n : ℕ) : (be16Bytes n).length = 2 := rfl

/-- Nothing when the frame does not fit. -/
def wpa2EapolBuild (outSize : ℕ) (keyInfo keyLength : UInt16) (replay : Octets 8)
    (nonce : Octets 32) (keyData : List UInt8) (kck : Option (Octets 16)) : Option (List UInt8) :=
  let total := wpa2EapolKeyFixed + keyData.length
  if total > outSize then none
  else
    let out := List.replicate total 0
    let out := writeAt out 0 [1, 3]
    let out := writeAt out 2 (be16Bytes (total - wpa2EapolHeaderLen))
    let out := writeAt out 4 [2]
    let out := writeAt out 5 (be16Bytes keyInfo.toNat)
    let out := writeAt out 7 (be16Bytes keyLength.toNat)
    let out := writeAt out 9 replay.val
    let out := writeAt out 17 nonce.val
    let out := writeAt out 97 (be16Bytes keyData.length)
    let out := writeAt out wpa2EapolKeyFixed keyData
    match kck with
    | none => some out
    | some kck =>
      some (writeAt out wpa2EapolMicOffset ((hmacSha1 kck.val out).take wpa2EapolMicLen))

def wpa2EapolMicOk (kck : Octets 16) (frame : List UInt8) (frameLen : ℕ) : Bool :=
  if frameLen < wpa2EapolKeyFixed then false
  else
    let h := hmacSha1Begin kck.val
    let h := hmacSha1Update h (slice frame 0 wpa2EapolMicOffset)
    let h := hmacSha1Update h (List.replicate wpa2EapolMicLen 0)
    let h := hmacSha1Update h (slice frame (wpa2EapolMicOffset + wpa2EapolMicLen)
      (frameLen - wpa2EapolMicOffset - wpa2EapolMicLen))
    let mic := hmacSha1Final h
    let diff := (List.range wpa2EapolMicLen).foldl
      (fun diff i => diff ||| (mic.getD i 0 ^^^ frame.getD (wpa2EapolMicOffset + i) 0)) (0 : UInt8)
    diff = 0

def gtkKde : List UInt8 := [0x00, 0x0F, 0xAC, 0x01]

/-- The key data from the current position `i` on. -/
def wpa2FindGtk : List UInt8 → Option (UInt8 × Octets 16)
  | type :: elen :: rest =>
    if type = 0xDD ∧ elen = 0 then none
    else if hfit : rest.length < elen.toNat then none
    else if hkde : type = 0xDD ∧ elen = 22 ∧ rest.take 4 = gtkKde then
      some (rest.getD 4 0 &&& 0x03, ⟨slice rest 6 16, length_slice_of_le (by
        rw [hkde.2.1] at hfit
        exact Nat.le_of_not_lt hfit)⟩)
    else wpa2FindGtk (rest.drop elen.toNat)
  | _ => none
termination_by l => l.length
decreasing_by
  simp only [List.length_drop, List.length_cons]
  omega

/-! ## The layout of the standard -/

/-- The fields of an EAPOL-Key frame apart from its MIC. The IV, the RSC and the key
identifier stand one behind the other in `ivRscId`. -/
structure KeyFrame where
  version : UInt8
  keyInfo : UInt16
  keyLength : UInt16
  replay : Octets 8
  nonce : Octets 32
  ivRscId : Octets 32
  keyData : List UInt8

namespace KeyFrame

variable (f : KeyFrame)

def size : ℕ := wpa2EapolKeyFixed + f.keyData.length

def start : List UInt8 :=
  [f.version, 3] ++ be16Bytes (f.size - wpa2EapolHeaderLen) ++ [2] ++ be16Bytes f.keyInfo.toNat ++
    be16Bytes f.keyLength.toNat

/-- Everything in front of the MIC. -/
def head : List UInt8 := f.start ++ (f.replay.val ++ (f.nonce.val ++ f.ivRscId.val))

/-- Everything behind the MIC. -/
def tail : List UInt8 := be16Bytes f.keyData.length ++ f.keyData

def bytes (mic : List UInt8) : List UInt8 := f.head ++ (mic ++ f.tail)

/-- The MIC of the standard: the hash over the frame with a zero MIC field, cut to 16 bytes. -/
def mic (kck : Octets 16) : List UInt8 :=
  (hmacSha1 kck.val (f.bytes (List.replicate wpa2EapolMicLen 0))).take wpa2EapolMicLen

def signed (kck : Octets 16) : List UInt8 := f.bytes (f.mic kck)

/-- What a receiver reads from the frame. -/
def fields : EapolKey where
  keyInfo := f.keyInfo
  keyLength := f.keyLength
  replay := f.replay
  nonce := f.nonce
  keyData := f.keyData
  frameLen := f.size

theorem size_eq : f.size = 99 + f.keyData.length := rfl

@[simp] theorem length_start : f.start.length = 9 := rfl

@[simp] theorem length_head : f.head.length = 81 := by
  simp [head, f.replay.property, f.nonce.property, f.ivRscId.property]

@[simp] theorem length_tail : f.tail.length = 2 + f.keyData.length := by
  simp [tail]

@[simp] theorem length_mic (kck : Octets 16) : (f.mic kck).length = 16 := by
  simp [mic, hmacSha1]

theorem length_bytes {m : List UInt8} (hm : m.length = 16) : (f.bytes m).length = f.size := by
  simp [bytes, hm, size]
  omega

end KeyFrame

/-! ## Parsing -/

theorem be16_be16Bytes (a b : List UInt8) {n : ℕ} (hn : n < 65536) :
    (be16 (a ++ (be16Bytes n ++ b)) a.length).toNat = n := by
  have h8 : (8 : UInt16).toNat % 16 = 8 := rfl
  have hlow : (a ++ (be16Bytes n ++ b)).getD a.length 0 = UInt8.ofNat (n >>> 8) := by
    simp [be16Bytes, List.getD_eq_getElem?_getD]
  have hhigh : (a ++ (be16Bytes n ++ b)).getD (a.length + 1) 0 = UInt8.ofNat n := by
    simp [be16Bytes, List.getD_eq_getElem?_getD]
  rw [be16, hlow, hhigh]
  simp only [UInt16.toNat_or, UInt8.toNat_toUInt16, UInt16.toNat_shiftLeft, h8,
    UInt8.toNat_ofNat', Nat.shiftRight_eq_div_pow]
  rw [Nat.mod_eq_of_lt (by rw [Nat.shiftLeft_eq]; omega),
    ← Nat.shiftLeft_add_eq_or_of_lt (by omega), Nat.shiftLeft_eq]
  omega

theorem be16_toNat (a b : List UInt8) (v : UInt16) :
    be16 (a ++ (be16Bytes v.toNat ++ b)) a.length = v := by
  rw [← UInt16.toNat_inj, be16_be16Bytes a b v.toNat_lt]

section Parse

variable (f : KeyFrame) (m pad : List UInt8)

theorem slice_replay : slice (f.bytes m ++ pad) 9 8 = f.replay.val := by
  have h := slice_middle f.start f.replay.val
    (f.nonce.val ++ (f.ivRscId.val ++ (m ++ (f.tail ++ pad))))
  rw [f.length_start, f.replay.property] at h
  simpa [KeyFrame.bytes, KeyFrame.head] using h

theorem slice_nonce : slice (f.bytes m ++ pad) 17 32 = f.nonce.val := by
  have h := slice_middle (f.start ++ f.replay.val) f.nonce.val
    (f.ivRscId.val ++ (m ++ (f.tail ++ pad)))
  rw [List.length_append, f.length_start, f.replay.property, f.nonce.property] at h
  simpa [KeyFrame.bytes, KeyFrame.head] using h

theorem be16_keyInfo : be16 (f.bytes m ++ pad) 5 = f.keyInfo := by
  have h := be16_toNat ([f.version, 3] ++ be16Bytes (f.size - 4) ++ [2])
    (be16Bytes f.keyLength.toNat ++ (f.replay.val ++ (f.nonce.val ++ (f.ivRscId.val ++
      (m ++ (f.tail ++ pad)))))) f.keyInfo
  simpa [KeyFrame.bytes, KeyFrame.head, KeyFrame.start] using h

theorem be16_keyLength : be16 (f.bytes m ++ pad) 7 = f.keyLength := by
  have h := be16_toNat ([f.version, 3] ++ be16Bytes (f.size - 4) ++ [2] ++
    be16Bytes f.keyInfo.toNat) (f.replay.val ++ (f.nonce.val ++ (f.ivRscId.val ++
      (m ++ (f.tail ++ pad))))) f.keyLength
  simpa [KeyFrame.bytes, KeyFrame.head, KeyFrame.start] using h

theorem be16_size (hsize : f.size < 65540) : (be16 (f.bytes m ++ pad) 2).toNat = f.size - 4 := by
  have h := be16_be16Bytes [f.version, 3] ([2] ++ (be16Bytes f.keyInfo.toNat ++
    (be16Bytes f.keyLength.toNat ++ (f.replay.val ++ (f.nonce.val ++ (f.ivRscId.val ++
      (m ++ (f.tail ++ pad)))))))) (n := f.size - 4) (by omega)
  simpa [KeyFrame.bytes, KeyFrame.head, KeyFrame.start] using h

variable {m} (hm : m.length = 16)

include hm

theorem slice_mic : slice (f.bytes m ++ pad) 81 16 = m := by
  have h := slice_middle f.head m (f.tail ++ pad)
  rw [f.length_head, hm] at h
  simpa [KeyFrame.bytes] using h

theorem be16_keyDataLen (hsize : f.size < 65540) :
    (be16 (f.bytes m ++ pad) 97).toNat = f.keyData.length := by
  have hlen : (f.head ++ m).length = 97 := by simp [hm]
  have h := be16_be16Bytes (f.head ++ m) (f.keyData ++ pad) (n := f.keyData.length)
    (by rw [f.size_eq] at hsize; omega)
  rw [hlen] at h
  simpa [KeyFrame.bytes, KeyFrame.tail] using h

theorem slice_keyData : slice (f.bytes m ++ pad) 99 f.keyData.length = f.keyData := by
  have h := slice_middle (f.head ++ (m ++ be16Bytes f.keyData.length)) f.keyData pad
  have hlen : (f.head ++ (m ++ be16Bytes f.keyData.length)).length = 99 := by simp [hm]
  rw [hlen] at h
  simpa [KeyFrame.bytes, KeyFrame.tail] using h

/-- A frame of the standard is read back field by field, whatever follows it. -/
theorem wpa2EapolParse_bytes (hsize : f.size < 65540) :
    wpa2EapolParse (f.bytes m ++ pad) = some f.fields := by
  have hlen : (f.bytes m ++ pad).length = f.size + pad.length := by
    rw [List.length_append, f.length_bytes hm]
  have hkind : (f.bytes m ++ pad).getD 1 0 = 3 ∧ (f.bytes m ++ pad).getD 4 0 = 2 := ⟨rfl, rfl⟩
  have htotal : wpa2EapolHeaderLen + (be16 (f.bytes m ++ pad) 2).toNat = f.size := by
    rw [be16_size f m pad hsize]
    exact Nat.add_sub_cancel' (le_trans (by decide) (Nat.le_add_right 99 f.keyData.length))
  have hkdl := be16_keyDataLen f pad hm hsize
  have hfixed : f.size = wpa2EapolKeyFixed + f.keyData.length := rfl
  rw [wpa2EapolParse, dif_neg (by omega), if_neg (not_not.mpr hkind.1),
    if_neg (not_not.mpr hkind.2)]
  simp only [htotal, hkdl]
  rw [if_neg (by omega), if_neg (by omega)]
  simp only [slice_replay, slice_nonce, be16_keyInfo, be16_keyLength, slice_keyData f pad hm,
    KeyFrame.fields]

end Parse

/-- The fixed fields are read at their places, and the declared length lies inside the frame. -/
theorem wpa2EapolParse_some {frame : List UInt8} {k : EapolKey}
    (h : wpa2EapolParse frame = some k) :
    k.replay.val = slice frame 9 8 ∧ k.nonce.val = slice frame 17 32 ∧ 99 ≤ k.frameLen ∧
      k.frameLen ≤ frame.length := by
  unfold wpa2EapolParse at h
  split_ifs at h
  dsimp only at h
  split_ifs at h with htotal
  obtain rfl := Option.some.inj h
  rw [not_or, Nat.not_lt, Nat.not_lt] at htotal
  exact ⟨rfl, rfl, htotal⟩

/-! ## The MIC -/

theorem foldl_or_eq_zero (d : ℕ → UInt8) (l : List ℕ) (init : UInt8) :
    l.foldl (fun diff i => diff ||| d i) init = 0 ↔ init = 0 ∧ ∀ i ∈ l, d i = 0 := by
  induction l generalizing init with
  | nil => simp
  | cons i l ih => simp [ih, UInt8.or_eq_zero_iff, and_assoc]

/-- Comparing without an early exit is comparing the two fields. -/
theorem diff_eq_zero_iff {mic frame : List UInt8} {off n : ℕ} (hmic : n ≤ mic.length)
    (hframe : off + n ≤ frame.length) :
    (List.range n).foldl (fun diff i => diff ||| (mic.getD i 0 ^^^ frame.getD (off + i) 0))
      (0 : UInt8) = 0 ↔ mic.take n = slice frame off n := by
  rw [foldl_or_eq_zero (fun i => mic.getD i 0 ^^^ frame.getD (off + i) 0)]
  constructor
  · rintro ⟨-, h⟩
    apply List.ext_getElem
    · rw [length_slice_of_le hframe, List.length_take]
      omega
    · intro i hi hi'
      rw [List.length_take] at hi
      have hbyte := h i (List.mem_range.mpr (by omega))
      rw [UInt8.xor_eq_zero_iff] at hbyte
      simp only [List.getD_eq_getElem?_getD] at hbyte
      rw [List.getElem?_eq_getElem (by omega), List.getElem?_eq_getElem (by omega)] at hbyte
      simpa [slice] using hbyte
  · intro h
    refine ⟨rfl, fun i hi => ?_⟩
    have hi := List.mem_range.mp hi
    have hbyte : (mic.take n)[i]? = (slice frame off n)[i]? := by rw [h]
    rw [UInt8.xor_eq_zero_iff, List.getD_eq_getElem?_getD, List.getD_eq_getElem?_getD]
    simp only [slice, List.getElem?_take, hi, if_true, List.getElem?_drop] at hbyte
    rw [hbyte]

/-- The MIC field of a frame is the hash over the frame with a zero MIC field, cut to 16
bytes. -/
def MicVerifies (kck : Octets 16) (frame : List UInt8) : Prop :=
  slice frame 81 16 = (hmacSha1 kck.val (writeAt frame 81 (List.replicate 16 0))).take 16

/-- The check accepts exactly the frames whose MIC verifies; what follows the frame does not
matter. -/
theorem wpa2EapolMicOk_iff (kck : Octets 16) {frame : List UInt8} {frameLen : ℕ}
    (hmin : 99 ≤ frameLen) (hlen : frameLen ≤ frame.length) :
    wpa2EapolMicOk kck frame frameLen = true ↔ MicVerifies kck (frame.take frameLen) := by
  set g := frame.take frameLen with hg
  have hhead : slice frame 0 81 = g.take 81 := by
    rw [slice, List.drop_zero, hg, List.take_take, Nat.min_eq_left (by omega)]
  have htail : slice frame (wpa2EapolMicOffset + wpa2EapolMicLen)
      (frameLen - wpa2EapolMicOffset - wpa2EapolMicLen) = g.drop 97 := by
    rw [slice, hg, List.drop_take, Nat.sub_sub]
    rfl
  have hmic : slice frame 81 16 = slice g 81 16 := by
    have hsame : frame.take 97 = g.take 97 := by
      rw [hg, List.take_take, Nat.min_eq_left (by omega)]
    exact slice_congr hsame (by omega)
  have hhash : hmacSha1Update (hmacSha1Update (hmacSha1Update (hmacSha1Begin kck.val) (g.take 81))
      (List.replicate wpa2EapolMicLen 0)) (g.drop 97) =
      hmacSha1Update (hmacSha1Begin kck.val) (writeAt g 81 (List.replicate 16 0)) := by
    rw [← hmacSha1Update_append, ← hmacSha1Update_append, writeAt, List.length_replicate,
      List.append_assoc]
  have hbound : 81 + 16 ≤ frame.length := by omega
  rw [wpa2EapolMicOk, if_neg (Nat.not_lt.mpr hmin)]
  simp only [decide_eq_true_eq]
  rw [diff_eq_zero_iff (by rw [length_hmacSha1Final]; decide) hbound, hhead, htail, hhash, hmic]
  exact eq_comm

theorem micVerifies_bytes (f : KeyFrame) (kck : Octets 16) {m : List UInt8}
    (hm : m.length = 16) : MicVerifies kck (f.bytes m) ↔ m = f.mic kck := by
  have hslice := slice_mic f [] hm
  have hzero := writeAt_append_left f.head m (List.replicate 16 0) (by rw [hm]; rfl) f.tail
  rw [List.append_nil] at hslice
  rw [f.length_head] at hzero
  rw [MicVerifies, hslice, KeyFrame.bytes, hzero]
  rfl

theorem micVerifies_signed (f : KeyFrame) (kck : Octets 16) : MicVerifies kck (f.signed kck) :=
  (micVerifies_bytes f kck (f.length_mic kck)).mpr rfl

theorem wpa2EapolMicOk_signed (f : KeyFrame) (kck : Octets 16) (pad : List UInt8) :
    wpa2EapolMicOk kck (f.signed kck ++ pad) f.size = true := by
  have hlen : (f.signed kck).length = f.size := f.length_bytes (f.length_mic kck)
  have hmin : 99 ≤ f.size := Nat.le_add_right 99 _
  rw [wpa2EapolMicOk_iff kck hmin (by rw [List.length_append, hlen]; exact Nat.le_add_right _ _),
    ← hlen, List.take_left]
  exact micVerifies_signed f kck

/-! ## Building -/

/-- The frame the station builds: 802.1X-2001, with a zero IV, RSC and key identifier. -/
def stationFrame (keyInfo keyLength : UInt16) (replay : Octets 8) (nonce : Octets 32)
    (keyData : List UInt8) : KeyFrame :=
  { version := 1, keyInfo, keyLength, replay, nonce, ivRscId := Octets.zero 32, keyData }

/-- A copy into the zeros of a buffer, right behind what was copied before. -/
theorem writeAt_zeros (done src : List UInt8) (k n rest : ℕ) (hk : done.length = k)
    (hn : src.length + rest = n) :
    writeAt (done ++ List.replicate n 0) k src = (done ++ src) ++ List.replicate rest 0 := by
  subst hk hn
  rw [List.replicate_add, writeAt_append_left done _ src (by simp), List.append_assoc]

section Build

variable (keyInfo keyLength : UInt16) (replay : Octets 8) (nonce : Octets 32)
  (keyData : List UInt8)

/-- The copies of `wpa2_eapol_build` leave the frame with a zero MIC field. -/
theorem writeAt_fields (total : ℕ) (htotal : total = 99 + keyData.length) :
    writeAt (writeAt (writeAt (writeAt (writeAt (writeAt (writeAt (writeAt (writeAt
      (List.replicate total 0) 0 [1, 3]) 2 (be16Bytes (total - 4))) 4 [2])
      5 (be16Bytes keyInfo.toNat)) 7 (be16Bytes keyLength.toNat)) 9 replay.val) 17 nonce.val)
      97 (be16Bytes keyData.length)) 99 keyData =
    (stationFrame keyInfo keyLength replay nonce keyData).bytes (List.replicate 16 0) := by
  obtain ⟨replay, hr⟩ := replay
  obtain ⟨nonce, hn⟩ := nonce
  subst htotal
  set d := keyData.length with hd
  have hstart : List.replicate (99 + d) (0 : UInt8) = [] ++ List.replicate (99 + d) 0 := rfl
  rw [hstart, writeAt_zeros [] [1, 3] 0 (99 + d) (97 + d) rfl (by simp; omega),
    writeAt_zeros _ _ 2 (97 + d) (95 + d) rfl (by simp; omega),
    writeAt_zeros _ _ 4 (95 + d) (94 + d) rfl (by simp; omega),
    writeAt_zeros _ _ 5 (94 + d) (92 + d) rfl (by simp; omega),
    writeAt_zeros _ _ 7 (92 + d) (90 + d) rfl (by simp; omega),
    writeAt_zeros _ _ 9 (90 + d) (82 + d) rfl (by simp [hr]; omega),
    writeAt_zeros _ _ 17 (82 + d) (50 + d) (by simp [hr]) (by simp [hn]; omega)]
  -- the IV, the RSC, the key identifier and the MIC stay zero
  rw [show 50 + d = 48 + (2 + d) by omega, List.replicate_add, ← List.append_assoc,
    writeAt_zeros _ _ 97 (2 + d) d (by simp [hr, hn]) (by simp),
    writeAt_zeros _ _ 99 d 0 (by simp [hr, hn]) (by omega)]
  simp [KeyFrame.bytes, KeyFrame.head, KeyFrame.tail, KeyFrame.start, stationFrame, Octets.zero,
    KeyFrame.size, ← hd]

/-- With a key the builder makes the signed frame of the standard. -/
theorem wpa2EapolBuild_eq (outSize : ℕ) (kck : Octets 16)
    (hfit : wpa2EapolKeyFixed + keyData.length ≤ outSize) :
    wpa2EapolBuild outSize keyInfo keyLength replay nonce keyData (some kck) =
      some ((stationFrame keyInfo keyLength replay nonce keyData).signed kck) := by
  set f := stationFrame keyInfo keyLength replay nonce keyData with hf
  have hfields := writeAt_fields keyInfo keyLength replay nonce keyData _ rfl
  rw [← hf] at hfields
  have hmic : writeAt (f.bytes (List.replicate 16 0)) 81 (f.mic kck) = f.signed kck := by
    have h := writeAt_append_left f.head (List.replicate 16 0) (f.mic kck) (by simp) f.tail
    rwa [f.length_head] at h
  rw [wpa2EapolBuild, if_neg (Nat.not_lt.mpr hfit)]
  dsimp only
  rw [hfields]
  exact congrArg some hmic

end Build

/-! ## The codec -/

/-- The fields of a frame, parsed. -/
def builtKey (keyInfo keyLength : UInt16) (replay : Octets 8) (nonce : Octets 32)
    (keyData : List UInt8) (frameLen : ℕ) : EapolKey :=
  { keyInfo, keyLength, replay, nonce, keyData, frameLen }

theorem wpa2EapolParse_build {outSize : ℕ} (keyInfo keyLength : UInt16) (replay : Octets 8)
    (nonce : Octets 32) (keyData : List UInt8) (kck : Octets 16) (pad : List UInt8)
    (hmax : outSize ≤ 512) (hfit : wpa2EapolKeyFixed + keyData.length ≤ outSize) :
    ∃ out, wpa2EapolBuild outSize keyInfo keyLength replay nonce keyData (some kck) = some out ∧
      wpa2EapolParse (out ++ pad) =
        some (builtKey keyInfo keyLength replay nonce keyData out.length) ∧
      wpa2EapolMicOk kck (out ++ pad) out.length = true := by
  set f := stationFrame keyInfo keyLength replay nonce keyData with hf
  have hsize : f.size = 99 + keyData.length := rfl
  have hlen : (f.signed kck).length = f.size := f.length_bytes (f.length_mic kck)
  refine ⟨f.signed kck, wpa2EapolBuild_eq _ _ _ _ _ outSize kck hfit, ?_, ?_⟩
  · rw [hlen]
    exact wpa2EapolParse_bytes f pad (f.length_mic kck) (by
      rw [hsize]
      exact lt_of_le_of_lt (le_trans hfit hmax) (by decide))
  · rw [hlen]
    exact wpa2EapolMicOk_signed f kck pad

/-- The two declared lengths lie inside the received bytes. -/
theorem wpa2EapolParse_lengths {frame : List UInt8} {k : EapolKey}
    (h : wpa2EapolParse frame = some k) :
    k.frameLen = wpa2EapolHeaderLen + (be16 frame 2).toNat ∧ k.frameLen ≤ frame.length ∧
      k.keyData.length = (be16 frame 97).toNat ∧
      wpa2EapolKeyFixed + k.keyData.length ≤ k.frameLen := by
  unfold wpa2EapolParse at h
  split_ifs at h
  dsimp only at h
  split_ifs at h with htotal hkdl
  obtain rfl := Option.some.inj h
  rw [not_or, Nat.not_lt, Nat.not_lt] at htotal
  rw [Nat.not_lt] at hkdl
  have hkeyData : (slice frame wpa2EapolKeyFixed (be16 frame 97).toNat).length =
      (be16 frame 97).toNat := length_slice_of_le (le_trans hkdl htotal.2)
  refine ⟨rfl, htotal.2, hkeyData, ?_⟩
  rw [hkeyData]
  exact hkdl

/-- What is read of an accepted frame does not depend on what lies behind the received bytes. -/
theorem wpa2EapolParse_inside {frame : List UInt8} {k : EapolKey}
    (h : wpa2EapolParse frame = some k) (beyond : List UInt8) :
    slice (frame ++ beyond) 9 8 = k.replay.val ∧ slice (frame ++ beyond) 17 32 = k.nonce.val ∧
      slice (frame ++ beyond) wpa2EapolKeyFixed k.keyData.length = k.keyData ∧
      ∀ kck, wpa2EapolMicOk kck (frame ++ beyond) k.frameLen =
        wpa2EapolMicOk kck frame k.frameLen := by
  obtain ⟨hreplay, hnonce, hmin, hlen⟩ := wpa2EapolParse_some h
  obtain ⟨-, -, hkdl, hfits⟩ := wpa2EapolParse_lengths h
  have hkeyData : k.keyData = slice frame wpa2EapolKeyFixed k.keyData.length := by
    rw [hkdl]
    unfold wpa2EapolParse at h
    split_ifs at h
    dsimp only at h
    split_ifs at h
    obtain rfl := Option.some.inj h
    rfl
  refine ⟨?_, ?_, ?_, fun kck => ?_⟩
  · rw [slice_append_left (by omega), hreplay]
  · rw [slice_append_left (by omega), hnonce]
  · rw [slice_append_left (le_trans hfits hlen), ← hkeyData]
  · have hsame : (frame ++ beyond).take k.frameLen = frame.take k.frameLen :=
      List.take_append_of_le_length hlen
    rw [Bool.eq_iff_iff, wpa2EapolMicOk_iff kck hmin hlen,
      wpa2EapolMicOk_iff kck hmin (by rw [List.length_append]; omega), hsame]

/-- What is built is parsed back and verifies, and what is parsed lies inside what was received. -/
theorem wpa2Eapol_codec :
    (∀ (outSize : ℕ) (keyInfo keyLength : UInt16) (replay : Octets 8) (nonce : Octets 32)
      (keyData : List UInt8) (kck : Octets 16) (pad : List UInt8), outSize ≤ 512 →
      wpa2EapolKeyFixed + keyData.length ≤ outSize →
      ∃ out, wpa2EapolBuild outSize keyInfo keyLength replay nonce keyData (some kck) = some out ∧
        wpa2EapolParse (out ++ pad) =
          some (builtKey keyInfo keyLength replay nonce keyData out.length) ∧
        wpa2EapolMicOk kck (out ++ pad) out.length = true) ∧
    ∀ (frame : List UInt8) (k : EapolKey), wpa2EapolParse frame = some k →
      (k.frameLen = wpa2EapolHeaderLen + (be16 frame 2).toNat ∧ k.frameLen ≤ frame.length ∧
        k.keyData.length = (be16 frame 97).toNat ∧
        wpa2EapolKeyFixed + k.keyData.length ≤ k.frameLen) ∧
      ∀ beyond, slice (frame ++ beyond) 9 8 = k.replay.val ∧
        slice (frame ++ beyond) 17 32 = k.nonce.val ∧
        slice (frame ++ beyond) wpa2EapolKeyFixed k.keyData.length = k.keyData ∧
        ∀ kck, wpa2EapolMicOk kck (frame ++ beyond) k.frameLen =
          wpa2EapolMicOk kck frame k.frameLen :=
  ⟨fun _ keyInfo keyLength replay nonce keyData kck pad hmax hfit =>
      wpa2EapolParse_build keyInfo keyLength replay nonce keyData kck pad hmax hfit,
    fun _ _ h => ⟨wpa2EapolParse_lengths h, wpa2EapolParse_inside h⟩⟩

/-- Message 2 in the largest buffer, and a frame of another builder with padding behind it. -/
theorem wpa2Eapol_codec_msg2 :
    (∃ out, wpa2EapolBuild 512 keyInfoMsg2 0 (Octets.zero 8) (Octets.zero 32) wpa2RsnIe
        (some (Octets.zero 16)) = some out ∧
      wpa2EapolParse (out ++ [0, 0]) =
        some (builtKey keyInfoMsg2 0 (Octets.zero 8) (Octets.zero 32) wpa2RsnIe out.length) ∧
      wpa2EapolMicOk (Octets.zero 16) (out ++ [0, 0]) out.length = true) ∧
    ∀ k, wpa2EapolParse ((stationFrame keyInfoMsg4 0 (Octets.zero 8) (Octets.zero 32) []).bytes
        (List.replicate 16 0) ++ [0]) = some k → k.frameLen ≤ 100 :=
  ⟨wpa2Eapol_codec.1 512 keyInfoMsg2 0 (Octets.zero 8) (Octets.zero 32) wpa2RsnIe (Octets.zero 16)
      [0, 0] (by decide) (by decide),
    fun k h => (wpa2Eapol_codec.2 _ k h).1.2.1⟩

/-! ## Key data -/

/-- An information element. -/
structure Element where
  type : UInt8
  body : List UInt8
  body_lt : body.length < 256

namespace Element

def bytes (e : Element) : List UInt8 := e.type :: UInt8.ofNat e.body.length :: e.body

/-- The mark `0xDD, 0x00` that starts the padding. -/
def IsPadding (e : Element) : Prop := e.type = 0xDD ∧ e.body = []

/-- A GTK KDE for a key of 16 bytes. -/
def IsGtk (e : Element) : Prop := e.type = 0xDD ∧ e.body.length = 22 ∧ e.body.take 4 = gtkKde

instance : DecidablePred IsPadding := fun _ => inferInstanceAs (Decidable (_ ∧ _))

instance : DecidablePred IsGtk := fun _ => inferInstanceAs (Decidable (_ ∧ _ ∧ _))

/-- The KDE that carries `gtk`: key id and tx bit, a reserved byte, the key. -/
def gtk (flags reserved : UInt8) (key : Octets 16) : Element where
  type := 0xDD
  body := gtkKde ++ [flags, reserved] ++ key.val
  body_lt := by simp [gtkKde, key.property]

theorem toNat_length (e : Element) : (UInt8.ofNat e.body.length).toNat = e.body.length := by
  rw [UInt8.toNat_ofNat', Nat.mod_eq_of_lt e.body_lt]

theorem length_eq_iff (e : Element) {n : UInt8} :
    UInt8.ofNat e.body.length = n ↔ e.body.length = n.toNat := by
  rw [← UInt8.toNat_inj, toNat_length]

end Element

/-- The search steps over an element that is neither padding nor a GTK. -/
theorem wpa2FindGtk_skip {e : Element} (hpad : ¬e.IsPadding) (hgtk : ¬e.IsGtk)
    (rest : List UInt8) : wpa2FindGtk (e.bytes ++ rest) = wpa2FindGtk rest := by
  have hlen := e.toNat_length
  have hfirst : ¬(e.type = 0xDD ∧ UInt8.ofNat e.body.length = 0) := by
    rw [e.length_eq_iff]
    exact fun h => hpad ⟨h.1, List.length_eq_zero_iff.mp h.2⟩
  have hkde : ¬(e.type = 0xDD ∧ UInt8.ofNat e.body.length = 22 ∧
      (e.body ++ rest).take 4 = gtkKde) := by
    rw [e.length_eq_iff]
    rintro ⟨htype, hsize, hkde⟩
    change e.body.length = 22 at hsize
    rw [List.take_append_of_le_length (by omega)] at hkde
    exact hgtk ⟨htype, hsize, hkde⟩
  rw [Element.bytes, List.cons_append, List.cons_append, wpa2FindGtk, if_neg hfirst,
    dif_neg (by rw [hlen, List.length_append]; omega), dif_neg hkde, hlen, List.drop_left]

theorem wpa2FindGtk_elements {es : List Element}
    (h : ∀ e ∈ es, ¬e.IsPadding ∧ ¬e.IsGtk) (rest : List UInt8) :
    wpa2FindGtk (es.flatMap Element.bytes ++ rest) = wpa2FindGtk rest := by
  induction es with
  | nil => rfl
  | cons e es ih =>
    obtain ⟨hpad, hgtk⟩ := h e (by simp)
    rw [List.flatMap_cons, List.append_assoc, wpa2FindGtk_skip hpad hgtk,
      ih fun e' he' => h e' (by simp [he'])]

theorem wpa2FindGtk_gtk (flags reserved : UInt8) (key : Octets 16) (rest : List UInt8) :
    wpa2FindGtk ((Element.gtk flags reserved key).bytes ++ rest) = some (flags &&& 0x03, key) := by
  have hkey := key.property
  have hbody : (Element.gtk flags reserved key).body.length = 22 := by
    simp [Element.gtk, gtkKde, hkey]
  have hslice : slice ((Element.gtk flags reserved key).body ++ rest) 6 16 = key.val := by
    have h := slice_middle (gtkKde ++ [flags, reserved]) key.val rest
    rw [hkey] at h
    simpa [Element.gtk, gtkKde] using h
  rw [Element.bytes, List.cons_append, List.cons_append, wpa2FindGtk, hbody]
  rw [if_neg (fun h => absurd h.2 (by decide)), dif_neg (by rw [List.length_append, hbody]; simp),
    dif_pos ⟨rfl, rfl, rfl⟩]
  simp only [hslice]
  rfl

end BekenCam.Wpa2
