import BekenCam.ApFrames
import BekenCam.ScanElements

/-!
# The frames of the access point read by a scan

Every frame is written as pieces. A piece that does not fit is left out and the writing goes on, but
the frame is then reported as empty. A beacon or a probe response that does fit has its addresses
where a scan looks for them, and behind the fixed part a run of elements.
-/
namespace BekenCam.Ap

/-! ## Writing pieces -/

/-- One piece after the other, each of them whole or not at all. -/
def puts (w : Writer) (pieces : List (List UInt8)) : Writer := pieces.foldl put w

section Pieces

variable {w : Writer} {src : List UInt8} {pieces pieces' : List (List UInt8)}

@[simp] theorem cap_put (w : Writer) (src : List UInt8) : (put w src).cap = w.cap := by
  unfold put
  split <;> rfl

theorem length_put (h : w.data.length ≤ w.cap) : (put w src).data.length ≤ w.cap := by
  unfold put
  split
  · exact h
  · simp only [List.length_append]
    omega

@[simp] theorem puts_cons : puts w (src :: pieces) = puts (put w src) pieces := rfl

theorem puts_append : puts w (pieces ++ pieces') = puts (puts w pieces) pieces' := by
  simp [puts]

/-- Nothing is written at or behind the capacity, whether the frame fits or not. -/
theorem length_puts (h : w.data.length ≤ w.cap) : (puts w pieces).data.length ≤ w.cap := by
  induction pieces generalizing w with
  | nil => exact h
  | cons src pieces ih =>
    have hnext : (put w src).data.length ≤ (put w src).cap := by
      rw [cap_put]
      exact length_put h
    simpa using ih hnext

theorem ok_put :
    (put w src).ok = true ↔ w.ok = true ∧ w.data.length + src.length ≤ w.cap := by
  unfold put
  split
  · next hlong => simpa using fun _ => hlong
  · next hfits => simp [Nat.le_of_not_lt hfits]

theorem data_put (h : w.data.length + src.length ≤ w.cap) : (put w src).data = w.data ++ src := by
  rw [put, if_neg (by omega)]

/-- The flag tells whether all pieces together fit: one left out is never made up for. -/
theorem ok_puts (h : w.data.length ≤ w.cap) :
    (puts w pieces).ok = true ↔
      w.ok = true ∧ w.data.length + pieces.flatten.length ≤ w.cap := by
  induction pieces generalizing w with
  | nil => simpa [puts] using fun _ => h
  | cons src pieces ih =>
    have hnext : (put w src).data.length ≤ (put w src).cap := by
      rw [cap_put]
      exact length_put h
    have hrest : (puts w (src :: pieces)).ok = true ↔
        (put w src).ok = true ∧ (put w src).data.length + pieces.flatten.length ≤ w.cap := by
      simpa using ih hnext
    rw [hrest, ok_put, List.flatten_cons, List.length_append]
    constructor
    · rintro ⟨⟨hok, hfits⟩, hall⟩
      rw [data_put hfits, List.length_append] at hall
      exact ⟨hok, by omega⟩
    · rintro ⟨hok, hall⟩
      have hfits : w.data.length + src.length ≤ w.cap := by omega
      refine ⟨⟨hok, hfits⟩, ?_⟩
      rw [data_put hfits, List.length_append]
      omega

theorem data_puts (h : w.data.length + pieces.flatten.length ≤ w.cap) :
    (puts w pieces).data = w.data ++ pieces.flatten := by
  induction pieces generalizing w with
  | nil => simp [puts]
  | cons src pieces ih =>
    rw [List.flatten_cons, List.length_append] at h
    have hfirst : (put w src).data = w.data ++ src := data_put (by omega)
    have hrest : (put w src).data.length + pieces.flatten.length ≤ (put w src).cap := by
      rw [cap_put, hfirst, List.length_append]
      omega
    show (puts (put w src) pieces).data = _
    rw [ih hrest, hfirst, List.flatten_cons, List.append_assoc]

end Pieces

/-! ## The frames -/

section Frames

variable {bss : ApBss} {da : Octets 6} {cap : ℕ} {typeSubtype : UInt8} {withTim : Bool}

/-- The header and the fixed fields behind it. -/
def fixedPart (typeSubtype : UInt8) (da : Octets 6) (bss : ApBss) : List UInt8 :=
  [typeSubtype, 0, 0, 0] ++ da.val ++ bss.bssid.val ++ bss.bssid.val ++ [0, 0] ++
    (List.replicate 8 0 ++ [100, 0, 0x21, 0x04])

def ssidElement (bss : ApBss) : Element where
  id := 0
  body := bss.ssid
  short := bss.ssid_fits.trans_lt (by decide)

def channelElement (bss : ApBss) : Element := ⟨3, [bss.channel], by simp⟩

def timElement : Element := ⟨5, kTim, by decide⟩

def frontElements (bss : ApBss) : List Element :=
  [ssidElement bss, ⟨1, kRates, by decide⟩, channelElement bss]

def bssElements (bss : ApBss) (withTim : Bool) : List Element :=
  frontElements bss ++
    (if withTim then [timElement] else []) ++ [⟨42, [0], by decide⟩, ⟨50, kExtRates, by decide⟩]

/-- The frame as it is with room enough. -/
def bssFrame (typeSubtype : UInt8) (da : Octets 6) (bss : ApBss) (withTim : Bool) : List UInt8 :=
  fixedPart typeSubtype da bss ++ (bssElements bss withTim).flatMap Element.bytes

def iePieces (e : Element) : List (List UInt8) := [[e.id], [UInt8.ofNat e.body.length], e.body]

def fixedPieces (typeSubtype : UInt8) (da : Octets 6) (bss : ApBss) : List (List UInt8) :=
  [[typeSubtype], [0], [0, 0], da.val, bss.bssid.val, bss.bssid.val, [0, 0], List.replicate 8 0,
    [100, 0], [0x21, 0x04]]

theorem putIe_eq (w : Writer) (e : Element) : putIe w e.id e.body = puts w (iePieces e) := rfl

theorem flatten_flatMap_iePieces (es : List Element) :
    (es.flatMap iePieces).flatten = es.flatMap Element.bytes := by
  induction es with
  | nil => rfl
  | cons e es ih =>
    rw [List.flatMap_cons, List.flatten_append, ih, List.flatMap_cons]
    simp [iePieces, Element.bytes]

/-- The writer of a beacon or a probe response. -/
def bssWriter (cap : ℕ) (typeSubtype : UInt8) (da : Octets 6) (bss : ApBss) (withTim : Bool) :
    Writer × ℕ :=
  putBssIes (putBssFixed (putHeader (start cap) typeSubtype da bss)) bss withTim

theorem put16_zero (w : Writer) : put16 w 0 = put w [0, 0] := rfl

theorem put16_interval (w : Writer) : put16 w beaconIntervalTu = put w [100, 0] := rfl

theorem put16_capability (w : Writer) : put16 w capability = put w [0x21, 0x04] := rfl

theorem putFixed_eq (w : Writer) :
    putBssFixed (putHeader w typeSubtype da bss) = puts w (fixedPieces typeSubtype da bss) := by
  simp only [putBssFixed, putHeader, put8, put16_zero, put16_interval, put16_capability, fixedPieces,
    puts_cons]
  rfl

theorem putIes_eq (w : Writer) (es : List Element) :
    es.foldl (fun w e => putIe w e.id e.body) w = puts w (es.flatMap iePieces) := by
  induction es generalizing w with
  | nil => rfl
  | cons e es ih => rw [List.foldl_cons, ih, putIe_eq, List.flatMap_cons, puts_append]

theorem putBssIes_fst (w : Writer) :
    (putBssIes w bss withTim).1 = puts w ((bssElements bss withTim).flatMap iePieces) := by
  rw [← putIes_eq]
  cases withTim <;>
    simp only [putBssIes, bssElements, frontElements, ssidElement, channelElement, timElement,
      Bool.false_eq_true, if_true, if_false, List.append_nil, List.cons_append, List.nil_append,
      List.foldl_cons, List.foldl_nil]

theorem putBssIes_snd (w : Writer) :
    (putBssIes w bss withTim).2 = (puts w ((frontElements bss).flatMap iePieces)).data.length := by
  rw [← putIes_eq]
  simp only [putBssIes, frontElements, ssidElement, channelElement, List.foldl_cons, List.foldl_nil]

theorem bssWriter_fst : (bssWriter cap typeSubtype da bss withTim).1 =
    puts (start cap) (fixedPieces typeSubtype da bss ++
      (bssElements bss withTim).flatMap iePieces) := by
  rw [bssWriter, putBssIes_fst, putFixed_eq, puts_append]

theorem bssWriter_snd : (bssWriter cap typeSubtype da bss withTim).2 =
    (puts (start cap) (fixedPieces typeSubtype da bss ++
      (frontElements bss).flatMap iePieces)).data.length := by
  rw [bssWriter, putBssIes_snd, putFixed_eq, puts_append]

theorem flatten_pieces :
    (fixedPieces typeSubtype da bss ++ (bssElements bss withTim).flatMap iePieces).flatten =
      bssFrame typeSubtype da bss withTim := by
  rw [List.flatten_append, flatten_flatMap_iePieces, bssFrame]
  simp [fixedPieces, fixedPart]

theorem length_fixedPart : (fixedPart typeSubtype da bss).length = 36 := by
  simp [fixedPart, da.property, bss.bssid.property]

theorem length_bssFrame : 36 ≤ (bssFrame typeSubtype da bss withTim).length := by
  rw [bssFrame, List.length_append, length_fixedPart]
  exact Nat.le_add_right _ _

theorem drop_bssFrame : (bssFrame typeSubtype da bss withTim).drop 36 =
    (bssElements bss withTim).flatMap Element.bytes :=
  List.drop_left' length_fixedPart

theorem length_bssWriter : (bssWriter cap typeSubtype da bss withTim).1.data.length ≤ cap := by
  rw [bssWriter_fst]
  exact length_puts (w := start cap) (Nat.zero_le _)

/-- The whole frame or, where it does not fit, nothing is reported. -/
theorem finish_bssWriter : finish (bssWriter cap typeSubtype da bss withTim).1 =
    if (bssFrame typeSubtype da bss withTim).length ≤ cap then bssFrame typeSubtype da bss withTim
    else [] := by
  have hstart : (start cap).data.length ≤ (start cap).cap := Nat.zero_le _
  have hok : (bssWriter cap typeSubtype da bss withTim).1.ok = true ↔
      (bssFrame typeSubtype da bss withTim).length ≤ cap := by
    rw [bssWriter_fst, ok_puts hstart, flatten_pieces]
    simp [start]
  by_cases hfits : (bssFrame typeSubtype da bss withTim).length ≤ cap
  · have hdata : (bssWriter cap typeSubtype da bss withTim).1.data =
        bssFrame typeSubtype da bss withTim := by
      have hroom : (start cap).data.length + (fixedPieces typeSubtype da bss ++
          (bssElements bss withTim).flatMap iePieces).flatten.length ≤ (start cap).cap := by
        rw [flatten_pieces]
        simpa [start] using hfits
      rw [bssWriter_fst, data_puts hroom, flatten_pieces]
      rfl
    rw [finish, if_pos (hok.mpr hfits), if_pos hfits, hdata]
  · rw [finish, if_neg (mt hok.mp hfits), if_neg hfits]

theorem finish_eq_nil : finish (bssWriter cap typeSubtype da bss withTim).1 = [] ↔
    cap < (bssFrame typeSubtype da bss withTim).length := by
  have hpos : 36 ≤ (bssFrame typeSubtype da bss withTim).length := length_bssFrame
  rw [finish_bssWriter]
  split
  · next hfits =>
    refine iff_of_false (fun hnil => ?_) (by omega)
    rw [hnil] at hpos
    simp at hpos
  · next hlong => exact iff_of_true rfl (by omega)

theorem finish_of_ne_nil (h : finish (bssWriter cap typeSubtype da bss withTim).1 ≠ []) :
    (bssFrame typeSubtype da bss withTim).length ≤ cap ∧
      finish (bssWriter cap typeSubtype da bss withTim).1 = bssFrame typeSubtype da bss withTim := by
  have hfits : (bssFrame typeSubtype da bss withTim).length ≤ cap :=
    Nat.le_of_not_lt (mt finish_eq_nil.mpr h)
  exact ⟨hfits, by rw [finish_bssWriter, if_pos hfits]⟩

/-- What a scan takes from a frame of this access point to this station. -/
structure ReadsBack (bss : ApBss) (da : Octets 6) (frame : List UInt8) : Prop where
  fixed : 36 ≤ frame.length
  elements : ∃ es : List Element, frame.drop 36 = es.flatMap Element.bytes
  destination : slice frame 4 6 = da.val
  source : slice frame 10 6 = bss.bssid.val
  bssid : slice frame 16 6 = bss.bssid.val
  ssid : ∀ mem base, bytesAt mem base frame.length = frame → ∃ p,
    valueOf mem (Scan.findIe (base + 36) (frame.length - 36) 0) = some p ∧
      StandsAt mem (base + 36) (frame.length - 36) p (ssidElement bss)
  channel : ∀ mem base, bytesAt mem base frame.length = frame → ∃ p,
    valueOf mem (Scan.findIe (base + 36) (frame.length - 36) 3) = some p ∧
      StandsAt mem (base + 36) (frame.length - 36) p (channelElement bss)

/-- The search of the scan finds the first element with the identifier. -/
theorem findIe_bssFrame {mem : ℕ → UInt8} {base : ℕ} {id : UInt8} {e : Element}
    (hmem : bytesAt mem base (bssFrame typeSubtype da bss withTim).length =
      bssFrame typeSubtype da bss withTim)
    (hfind : (bssElements bss withTim).find? (fun e => e.id = id) = some e) :
    ∃ p, valueOf mem (Scan.findIe (base + 36)
        ((bssFrame typeSubtype da bss withTim).length - 36) id) = some p ∧
      StandsAt mem (base + 36) ((bssFrame typeSubtype da bss withTim).length - 36) p e := by
  have hscan : ∃ r, Sees mem (fun _ => True) (Scan.findIe (base + 36)
      ((bssFrame typeSubtype da bss withTim).length - 36) id) r ∧ _ :=
    Scan.findIe_sees (fun _ _ => trivial) id
  obtain ⟨r, hsees, hfound⟩ := hscan
  rw [← drop_bytesAt, hmem, drop_bssFrame, elements_flatMap, hfind] at hfound
  cases r with
  | none => exact hfound.elim
  | some p => exact ⟨p, hsees.value, hfound⟩

theorem bssFrame_readsBack : ReadsBack bss da (bssFrame typeSubtype da bss withTim) where
  fixed := length_bssFrame
  elements := ⟨_, drop_bssFrame⟩
  destination := by
    simp [bssFrame, fixedPart, slice, da.property]
  source := by
    have hmiddle := slice_middle ([typeSubtype, 0, 0, 0] ++ da.val) bss.bssid.val
      (bss.bssid.val ++ [0, 0] ++ (List.replicate 8 0 ++ [100, 0, 0x21, 0x04]) ++
        (bssElements bss withTim).flatMap Element.bytes)
    simpa [bssFrame, fixedPart, da.property, bss.bssid.property] using hmiddle
  bssid := by
    have hmiddle := slice_middle ([typeSubtype, 0, 0, 0] ++ da.val ++ bss.bssid.val) bss.bssid.val
      ([0, 0] ++ (List.replicate 8 0 ++ [100, 0, 0x21, 0x04]) ++
        (bssElements bss withTim).flatMap Element.bytes)
    simpa [bssFrame, fixedPart, da.property, bss.bssid.property] using hmiddle
  ssid mem base hmem := findIe_bssFrame hmem rfl
  channel mem base hmem := findIe_bssFrame hmem rfl

/-- In a beacon that fits, the TIM element stands where the template says. -/
theorem slice_tim (hfits : (bssFrame typeSubtype da bss true).length ≤ cap) :
    slice (bssFrame typeSubtype da bss true) (bssWriter cap typeSubtype da bss true).2
      (2 + kTim.length) = timElement.bytes := by
  have hsplit : bssFrame typeSubtype da bss true =
      (fixedPart typeSubtype da bss ++ (frontElements bss).flatMap Element.bytes) ++
        (timElement.bytes ++
          [⟨42, [0], by decide⟩, ⟨50, kExtRates, by decide⟩].flatMap Element.bytes) := by
    simp [bssFrame, bssElements]
  have hfront : (fixedPieces typeSubtype da bss ++ (frontElements bss).flatMap iePieces).flatten =
      fixedPart typeSubtype da bss ++ (frontElements bss).flatMap Element.bytes := by
    rw [List.flatten_append, flatten_flatMap_iePieces]
    simp [fixedPieces, fixedPart]
  have hoft : (bssWriter cap typeSubtype da bss true).2 =
      (fixedPart typeSubtype da bss ++ (frontElements bss).flatMap Element.bytes).length := by
    have hroom : (start cap).data.length + (fixedPieces typeSubtype da bss ++
        (frontElements bss).flatMap iePieces).flatten.length ≤ (start cap).cap := by
      have hle := congrArg List.length hsplit
      rw [List.length_append] at hle
      rw [hfront]
      show 0 + _ ≤ cap
      omega
    rw [bssWriter_snd, data_puts hroom, hfront]
    rfl
  rw [hoft, hsplit]
  exact slice_middle _ _ _

end Frames

/-- Both frames are whole or not there, written inside their buffer, and read back by a scan; the
template of a beacon tells where its TIM element is. -/
theorem ap_frames_read_back (bss : ApBss) (da : Octets 6) (cap : ℕ) :
    ((apBuildBeacon bss cap).1 = [] ↔ cap < (bssFrame 0x80 kBcast bss true).length) ∧
    (bssWriter cap 0x80 kBcast bss true).1.data.length ≤ cap ∧
    ((apBuildBeacon bss cap).1 ≠ [] → ReadsBack bss kBcast (apBuildBeacon bss cap).1 ∧
      slice (apBuildBeacon bss cap).1 (apBuildBeacon bss cap).2.1 (apBuildBeacon bss cap).2.2 =
        timElement.bytes) ∧
    (apBuildProbeResp bss da cap = [] ↔ cap < (bssFrame 0x50 da bss false).length) ∧
    (bssWriter cap 0x50 da bss false).1.data.length ≤ cap ∧
    (apBuildProbeResp bss da cap ≠ [] → ReadsBack bss da (apBuildProbeResp bss da cap)) := by
  have hbeacon : apBuildBeacon bss cap = (finish (bssWriter cap 0x80 kBcast bss true).1,
      (bssWriter cap 0x80 kBcast bss true).2, 2 + kTim.length) := by
    unfold apBuildBeacon bssWriter
    generalize putBssIes _ bss true = r
    rfl
  have hprobe : apBuildProbeResp bss da cap = finish (bssWriter cap 0x50 da bss false).1 := by
    unfold apBuildProbeResp bssWriter
    rfl
  rw [hbeacon, hprobe]
  dsimp only
  refine ⟨finish_eq_nil, length_bssWriter, fun hsent => ?_, finish_eq_nil, length_bssWriter,
    fun hsent => ?_⟩
  · obtain ⟨hfits, hframe⟩ := finish_of_ne_nil hsent
    rw [hframe]
    exact ⟨bssFrame_readsBack, slice_tim hfits⟩
  · obtain ⟨-, hframe⟩ := finish_of_ne_nil hsent
    rw [hframe]
    exact bssFrame_readsBack

end BekenCam.Ap
