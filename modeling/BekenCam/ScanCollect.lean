import BekenCam.ScanElements

/-!
# Collecting the stations of a scan

What the two handlers of indications do to the result of the running session: each beacon or probe
response is parsed out of the message, a station already known keeps its strongest sighting, and
another one is put at the end. Messages are read byte by byte.
-/
namespace BekenCam.Scan

structure ScanStation where
  bssid : List UInt8
  channel : UInt8
  rssi : Int8
  security : StationSecurity
  beaconInt : ℕ
  ssid : List UInt8
deriving DecidableEq

structure ChannelSurvey where
  freq : ℕ
  noiseDbm : Int8
  timeMs : ℕ
  busyMs : ℕ
deriving DecidableEq

/-- The fields of `ScanResult` that indications fill. -/
structure ScanData where
  stations : List ScanStation
  survey : List ChannelSurvey
  stationCount : UInt16
  indications : UInt16
  dropped : UInt16
deriving DecidableEq

def ScanData.start : ScanData where
  stations := []
  survey := []
  stationCount := 0
  indications := 0
  dropped := 0

def scanSsidMax : ℕ := 32

/-- The frame stands behind the fields of `scanu_result_ind`. -/
def payloadOft : ℕ := 12

def macAddr3Oft : ℕ := 16
def macBeaconIntervalOft : ℕ := 32
def macBeaconCapaOft : ℕ := 34
def macBeaconVariablePartOft : ℕ := 36

def surveySize : ℕ := 12

def lookWord (base : ℕ) : Reads ℕ := do
  let low ← lookLe16 base
  let high ← lookLe16 (base + 2)
  return low + 65536 * high

/-- `memoryLeft` is what `new` would answer. -/
def scanSurveyAddHandler (collectSurvey : Bool) (param paramLen : ℕ) (memoryLeft : Bool)
    (r : ScanData) : Reads ScanData := do
  if paramLen < surveySize then return r
  if collectSurvey = false then return r
  if memoryLeft = false then return { r with dropped := r.dropped + 1 }
  let freq ← lookLe16 param
  let noiseDbm ← look (param + 2)
  let timeMs ← lookWord (param + 4)
  let busyMs ← lookWord (param + 8)
  return { r with survey := r.survey ++ [⟨freq, noiseDbm.toInt8, timeMs, busyMs⟩] }

/-- The channel of the frequency a frame arrived on. -/
def channelOfFreq (freq : ℕ) : UInt8 :=
  if freq = 2484 then 14 else if freq ≥ 2412 then UInt8.ofNat ((freq - 2407) / 5) else 0

/-- The DS parameter set before the frequency. -/
def lookChannel (param ies iesLen : ℕ) : Reads UInt8 := do
  match ← findIe ies iesLen 3 with
  | some ds =>
    if (← look (ds + 1)) ≥ 1 then look (ds + 2)
    else return channelOfFreq (← lookLe16 (param + 4))
  | none => return channelOfFreq (← lookLe16 (param + 4))

/-- The walk over the stations: none if the sender is not among them. -/
def keepStrongest (param bssid : ℕ) (channel : UInt8) :
    List ScanStation → Reads (Option (List ScanStation))
  | [] => pure none
  | s :: stations => do
    if (← lookBytes bssid 6) = s.bssid then
      let rssi ← look (param + 9)
      if rssi.toInt8 > s.rssi then
        return some ({ s with rssi := rssi.toInt8, channel := channel } :: stations)
      else return some (s :: stations)
    else return (← keepStrongest param bssid channel stations).map (s :: ·)

def lookSsid (ies iesLen : ℕ) : Reads (List UInt8) := do
  match ← findIe ies iesLen 0 with
  | some ssid =>
    let ssidLen ← look (ssid + 1)
    lookBytes (ssid + 2) (if ssidLen.toNat > scanSsidMax then scanSsidMax else ssidLen.toNat)
  | none => return []

def lookStation (param frame ies iesLen : ℕ) (channel : UInt8) : Reads ScanStation := do
  let bssid ← lookBytes (frame + macAddr3Oft) 6
  let rssi ← look (param + 9)
  let beaconInt ← lookLe16 (frame + macBeaconIntervalOft)
  let security ← parseSecurity ies iesLen (← lookLe16 (frame + macBeaconCapaOft))
  let ssid ← lookSsid ies iesLen
  return ⟨bssid, channel, rssi.toInt8, security, beaconInt, ssid⟩

def scanIndAddHandler (param paramLen : ℕ) (memoryLeft : Bool) (r : ScanData) :
    Reads ScanData := do
  if paramLen < payloadOft then return r
  let frame := param + payloadOft
  let avail := paramLen - payloadOft
  let length ← lookLe16 param
  let len := if length < avail then length else avail
  if len < macBeaconVariablePartOft then return r
  let ies := frame + macBeaconVariablePartOft
  let iesLen := len - macBeaconVariablePartOft
  let channel ← lookChannel param ies iesLen
  let r := { r with indications := r.indications + 1 }
  match ← keepStrongest param (frame + macAddr3Oft) channel r.stations with
  | some stations => return { r with stations := stations }
  | none =>
    if memoryLeft = false then return { r with dropped := r.dropped + 1 }
    let s ← lookStation param frame ies iesLen channel
    return { r with stations := r.stations ++ [s], stationCount := r.stationCount + 1 }

/-! ## What the handlers take from a message -/

def channelOf (es : List Element) (freq : ℕ) : UInt8 :=
  match es.find? (fun e => e.id = 3) with
  | some ds => if 1 ≤ ds.body.length then ds.body.getD 0 0 else channelOfFreq freq
  | none => channelOfFreq freq

def ssidOf (es : List Element) : List UInt8 :=
  match es.find? (fun e => e.id = 0) with
  | some ssid => ssid.body.take scanSsidMax
  | none => []

/-- The length of the frame: what the message says, or what arrived of it. -/
def frameLen (message : List UInt8) : ℕ := min (le16 message 0) (message.length - payloadOft)

def iesOf (message : List UInt8) : List Element :=
  elements (slice message (payloadOft + macBeaconVariablePartOft)
    (frameLen message - macBeaconVariablePartOft))

def stationOf (message : List UInt8) : ScanStation where
  bssid := slice message (payloadOft + macAddr3Oft) 6
  channel := channelOf (iesOf message) (le16 message 4)
  rssi := (message.getD 9 0).toInt8
  security := securityOf (iesOf message) (le16 message (payloadOft + macBeaconCapaOft))
  beaconInt := le16 message (payloadOft + macBeaconIntervalOft)
  ssid := ssidOf (iesOf message)

/-- The station as this message shows it, if it is long enough to parse. -/
def sighting (message : List UInt8) : Option ScanStation :=
  if payloadOft ≤ message.length ∧ macBeaconVariablePartOft ≤ frameLen message then
    some (stationOf message)
  else none

/-- A station after one more sighting of it. -/
def heardAgain (x s : ScanStation) : ScanStation :=
  if s.rssi < x.rssi then { s with rssi := x.rssi, channel := x.channel } else s

/-- The stations after one of them was sighted again, if it is one of them. -/
def sightAgain (x : ScanStation) : List ScanStation → Option (List ScanStation)
  | [] => none
  | s :: stations =>
    if x.bssid = s.bssid then some (heardAgain x s :: stations)
    else (sightAgain x stations).map (s :: ·)

/-- The result after a sighting. -/
def collect (memoryLeft : Bool) (r : ScanData) (x : ScanStation) : ScanData :=
  match sightAgain x r.stations with
  | some stations => { r with indications := r.indications + 1, stations := stations }
  | none =>
    if memoryLeft = false then
      { r with indications := r.indications + 1, dropped := r.dropped + 1 }
    else
      { r with
        indications := r.indications + 1
        stations := r.stations ++ [x]
        stationCount := r.stationCount + 1 }

section Messages

variable {mem : ℕ → UInt8} {ok : ℕ → Prop} {param n ies k : ℕ}

theorem getD_zero_of_stands {p : ℕ} {e : Element} (h : StandsAt mem ies k p e)
    (hlong : 1 ≤ e.body.length) : mem (p + 2) = e.body.getD 0 0 := by
  rw [← h.body_eq, getD_bytesAt hlong, Nat.add_zero]

theorem lookChannel_sees (hok : ∀ i < n, ok (param + i)) (hn : payloadOft ≤ n)
    (hies : ∀ i < k, ok (ies + i)) :
    Sees mem ok (lookChannel param ies k)
      (channelOf (elements (bytesAt mem ies k)) (le16 (bytesAt mem param n) 4)) := by
  have hfreq : Sees mem ok (do return channelOfFreq (← lookLe16 (param + 4)))
      (channelOfFreq (le16 (bytesAt mem param n) 4)) :=
    (sees_lookLe16 (le_trans (by decide) hn) hok).bind (sees_pure _)
  obtain ⟨r, hds, hfound⟩ := findIe_sees hies 3
  refine hds.bind ?_
  rw [channelOf]
  cases hfind : (elements (bytesAt mem ies k)).find? (fun e => e.id = 3) with
  | none =>
    rw [hfind] at hfound
    cases r with
    | some p => exact hfound.elim
    | none => exact hfreq
  | some ds =>
    rw [hfind] at hfound
    cases r with
    | none => exact hfound.elim
    | some p =>
      have hstands : StandsAt mem ies k p ds := hfound
      have hlength : (mem (p + 1)).toNat = ds.body.length := by
        rw [hstands.length_eq, ds.toNat_length]
      refine sees_look_bind (hstands.inside hies (by omega)) ?_
      show Sees mem ok _ (if 1 ≤ ds.body.length then ds.body.getD 0 0
        else channelOfFreq (le16 (bytesAt mem param n) 4))
      by_cases hlong : 1 ≤ ds.body.length
      · have hone : mem (p + 1) ≥ 1 := UInt8.le_iff_toNat_le.mpr (by simpa [hlength] using hlong)
        rw [if_pos hone, if_pos hlong, ← getD_zero_of_stands hstands hlong]
        exact sees_look (hstands.inside hies (by omega))
      · have hone : ¬ mem (p + 1) ≥ 1 := fun h => by
          have hle := UInt8.le_iff_toNat_le.mp h
          rw [hlength] at hle
          exact hlong hle
        rw [if_neg hone, if_neg hlong]
        exact hfreq

theorem lookSsid_sees (hies : ∀ i < k, ok (ies + i)) :
    Sees mem ok (lookSsid ies k) (ssidOf (elements (bytesAt mem ies k))) := by
  obtain ⟨r, hssid, hfound⟩ := findIe_sees hies 0
  refine hssid.bind ?_
  rw [ssidOf]
  cases hfind : (elements (bytesAt mem ies k)).find? (fun e => e.id = 0) with
  | none =>
    rw [hfind] at hfound
    cases r with
    | some p => exact hfound.elim
    | none => exact sees_pure _
  | some ssid =>
    rw [hfind] at hfound
    cases r with
    | none => exact hfound.elim
    | some p =>
      have hstands : StandsAt mem ies k p ssid := hfound
      have hlength : (mem (p + 1)).toNat = ssid.body.length := by
        rw [hstands.length_eq, ssid.toNat_length]
      refine sees_look_bind (hstands.inside hies (by omega)) ?_
      have hcount : (if (mem (p + 1)).toNat > scanSsidMax then scanSsidMax
          else (mem (p + 1)).toNat) = min scanSsidMax ssid.body.length := by
        rw [hlength]
        split <;> omega
      have htake : ssid.body.take scanSsidMax =
          bytesAt mem (p + 2) (min scanSsidMax ssid.body.length) := by
        rw [← hstands.body_eq, List.take_eq_take_min, length_bytesAt, take_bytesAt (by omega)]
      simp only [hcount, htake]
      refine sees_lookBytes fun i hi => ?_
      rw [Nat.add_assoc]
      exact hstands.inside hies (by omega)

theorem keepStrongest_sees {x : ScanStation} {bssid : ℕ} (hbssid : ∀ i < 6, ok (bssid + i))
    (hrssi : ok (param + 9)) (hx : x.bssid = bytesAt mem bssid 6)
    (hx' : x.rssi = (mem (param + 9)).toInt8) (stations : List ScanStation) :
    Sees mem ok (keepStrongest param bssid x.channel stations) (sightAgain x stations) := by
  induction stations with
  | nil => exact sees_pure _
  | cons s stations ih =>
    refine (sees_lookBytes hbssid).bind ?_
    rw [← hx, sightAgain]
    split
    · refine sees_look_bind hrssi ?_
      rw [← hx', heardAgain]
      split
      · exact sees_pure _
      · exact sees_pure _
    · exact ih.bind (sees_pure _)

variable (mem) in
theorem lookWord_sees {off : ℕ} (hoff : off + 4 ≤ n) (hok : ∀ i < n, ok (param + i)) :
    ∃ v, Sees mem ok (lookWord (param + off)) v := by
  have hhigh : Sees mem ok (lookLe16 (param + off + 2)) _ :=
    Nat.add_assoc param off 2 ▸ sees_lookLe16 (by omega) hok
  exact ⟨_, (sees_lookLe16 (by omega) hok).bind (hhigh.bind (sees_pure _))⟩

variable (mem ok) in
/-- A survey message adds a row, or counts as dropped, and nothing else changes. -/
theorem scanSurveyAddHandler_sees (hok : ∀ i < n, ok (param + i)) (collectSurvey memoryLeft : Bool)
    (r : ScanData) :
    ∃ survey, Sees mem ok (scanSurveyAddHandler collectSurvey param n memoryLeft r)
      (if surveySize ≤ n ∧ collectSurvey = true ∧ memoryLeft = false then
        { r with dropped := r.dropped + 1 }
      else { r with survey := survey }) := by
  unfold scanSurveyAddHandler
  by_cases hshort : n < surveySize
  · refine ⟨r.survey, ?_⟩
    rw [if_pos hshort, if_neg (by omega)]
    exact sees_pure _
  rw [if_neg hshort]
  cases collectSurvey with
  | false =>
    refine ⟨r.survey, ?_⟩
    rw [if_pos rfl, if_neg (by simp)]
    exact sees_pure _
  | true =>
    rw [if_neg (by simp)]
    cases memoryLeft with
    | false =>
      refine ⟨r.survey, ?_⟩
      rw [if_pos rfl, if_pos ⟨by omega, rfl, rfl⟩]
      exact sees_pure _
    | true =>
      have hsize : 12 ≤ n := Nat.le_of_not_lt hshort
      have hfreq : Sees mem ok (lookLe16 (param + 0)) _ := sees_lookLe16 (by omega) hok
      obtain ⟨time, htime⟩ := lookWord_sees mem (show 4 + 4 ≤ n by omega) hok
      obtain ⟨busy, hbusy⟩ := lookWord_sees mem (show 8 + 4 ≤ n by omega) hok
      refine ⟨r.survey ++ [⟨le16 (bytesAt mem param n) 0, (mem (param + 2)).toInt8, time, busy⟩], ?_⟩
      rw [if_neg (by simp), if_neg (by simp)]
      refine hfreq.bind (sees_look_bind (hok 2 (by omega)) (htime.bind (hbusy.bind ?_)))
      exact sees_pure _

/-- The elements of the frame are the bytes the parsers are given. -/
theorem iesOf_bytesAt (hn : payloadOft ≤ n)
    (hlen : macBeaconVariablePartOft ≤ frameLen (bytesAt mem param n)) :
    iesOf (bytesAt mem param n) =
      elements (bytesAt mem (param + payloadOft + macBeaconVariablePartOft)
        (frameLen (bytesAt mem param n) - macBeaconVariablePartOft)) := by
  have hle : frameLen (bytesAt mem param n) ≤ n - payloadOft := by
    rw [frameLen, length_bytesAt]
    exact Nat.min_le_right _ _
  rw [iesOf, slice_bytesAt (by omega), Nat.add_assoc]

theorem lookStation_sees (hok : ∀ i < n, ok (param + i)) (hn : payloadOft ≤ n)
    (hlen : macBeaconVariablePartOft ≤ frameLen (bytesAt mem param n)) :
    Sees mem ok
      (lookStation param (param + payloadOft) (param + payloadOft + macBeaconVariablePartOft)
        (frameLen (bytesAt mem param n) - macBeaconVariablePartOft)
        (stationOf (bytesAt mem param n)).channel)
      (stationOf (bytesAt mem param n)) := by
  have hle : frameLen (bytesAt mem param n) ≤ n - payloadOft := by
    rw [frameLen, length_bytesAt]
    exact Nat.min_le_right _ _
  have hoft : payloadOft = 12 ∧ macAddr3Oft = 16 ∧ macBeaconIntervalOft = 32 ∧
      macBeaconCapaOft = 34 ∧ macBeaconVariablePartOft = 36 := ⟨rfl, rfl, rfl, rfl, rfl⟩
  have hinside : ∀ i < frameLen (bytesAt mem param n) - macBeaconVariablePartOft,
      ok (param + payloadOft + macBeaconVariablePartOft + i) := by
    intro i hi
    rw [Nat.add_assoc, Nat.add_assoc]
    exact hok _ (by omega)
  have hbssid : Sees mem ok (lookBytes (param + payloadOft + macAddr3Oft) 6)
      (slice (bytesAt mem param n) (payloadOft + macAddr3Oft) 6) := by
    rw [slice_bytesAt (by omega), ← Nat.add_assoc]
    refine sees_lookBytes fun i hi => ?_
    rw [Nat.add_assoc, Nat.add_assoc]
    exact hok _ (by omega)
  have hinterval : Sees mem ok (lookLe16 (param + payloadOft + macBeaconIntervalOft)) _ :=
    Nat.add_assoc param payloadOft _ ▸ sees_lookLe16 (by omega) hok
  have hcapability : Sees mem ok (lookLe16 (param + payloadOft + macBeaconCapaOft)) _ :=
    Nat.add_assoc param payloadOft _ ▸ sees_lookLe16 (by omega) hok
  have hrssi : mem (param + 9) = (bytesAt mem param n).getD 9 0 := (getD_bytesAt (by omega)).symm
  refine hbssid.bind (sees_look_bind (hok 9 (by omega)) (hinterval.bind (hcapability.bind
    ((parseSecurity_sees hinside _).bind ((lookSsid_sees hinside).bind ?_)))))
  rw [← iesOf_bytesAt hn hlen, hrssi]
  exact sees_pure _

/-- A message too short to parse changes nothing; another one is a sighting. -/
theorem scanIndAddHandler_sees (hok : ∀ i < n, ok (param + i)) (memoryLeft : Bool)
    (r : ScanData) :
    Sees mem ok (scanIndAddHandler param n memoryLeft r)
      (match sighting (bytesAt mem param n) with
      | some x => collect memoryLeft r x
      | none => r) := by
  have hoft : payloadOft = 12 ∧ macAddr3Oft = 16 ∧ macBeaconVariablePartOft = 36 := ⟨rfl, rfl, rfl⟩
  unfold scanIndAddHandler
  by_cases hshort : n < payloadOft
  · have hnone : sighting (bytesAt mem param n) = none := by
      rw [sighting, if_neg]
      rw [length_bytesAt]
      omega
    rw [if_pos hshort, hnone]
    exact sees_pure _
  rw [if_neg hshort]
  have hn : payloadOft ≤ n := Nat.le_of_not_lt hshort
  have hlength : Sees mem ok (lookLe16 param) (le16 (bytesAt mem param n) 0) :=
    sees_lookLe16 (Nat.le_trans (show 0 + 2 ≤ payloadOft by decide) hn) hok
  refine hlength.bind ?_
  have hlen : (if le16 (bytesAt mem param n) 0 < n - payloadOft then le16 (bytesAt mem param n) 0
      else n - payloadOft) = frameLen (bytesAt mem param n) := by
    rw [frameLen, length_bytesAt]
    split <;> omega
  have hle : frameLen (bytesAt mem param n) ≤ n - payloadOft := by
    rw [frameLen, length_bytesAt]
    exact Nat.min_le_right _ _
  simp only [hlen]
  by_cases hframe : frameLen (bytesAt mem param n) < macBeaconVariablePartOft
  · have hnone : sighting (bytesAt mem param n) = none := by
      rw [sighting, if_neg]
      omega
    rw [if_pos hframe, hnone]
    exact sees_pure _
  rw [if_neg hframe]
  have hbeacon : macBeaconVariablePartOft ≤ frameLen (bytesAt mem param n) := Nat.le_of_not_lt hframe
  have hsome : sighting (bytesAt mem param n) = some (stationOf (bytesAt mem param n)) := by
    rw [sighting, if_pos]
    rw [length_bytesAt]
    exact ⟨hn, hbeacon⟩
  rw [hsome]
  have hinside : ∀ i < frameLen (bytesAt mem param n) - macBeaconVariablePartOft,
      ok (param + payloadOft + macBeaconVariablePartOft + i) := by
    intro i hi
    rw [Nat.add_assoc, Nat.add_assoc]
    exact hok _ (by omega)
  have hchannel : Sees mem ok
      (lookChannel param (param + payloadOft + macBeaconVariablePartOft)
        (frameLen (bytesAt mem param n) - macBeaconVariablePartOft))
      (stationOf (bytesAt mem param n)).channel := by
    show Sees mem ok _ (channelOf (iesOf (bytesAt mem param n)) _)
    rw [iesOf_bytesAt hn hbeacon]
    exact lookChannel_sees hok hn hinside
  refine hchannel.bind ?_
  have hbssid : ∀ i < 6, ok (param + payloadOft + macAddr3Oft + i) := by
    intro i hi
    rw [Nat.add_assoc, Nat.add_assoc]
    exact hok _ (by omega)
  have hx : (stationOf (bytesAt mem param n)).bssid =
      bytesAt mem (param + payloadOft + macAddr3Oft) 6 := by
    show slice (bytesAt mem param n) (payloadOft + macAddr3Oft) 6 = _
    rw [slice_bytesAt (by omega), Nat.add_assoc]
  have hrssi : (stationOf (bytesAt mem param n)).rssi = (mem (param + 9)).toInt8 := by
    show ((bytesAt mem param n).getD 9 0).toInt8 = _
    rw [getD_bytesAt (by omega)]
  refine (keepStrongest_sees hbssid (hok 9 (by omega)) hx hrssi r.stations).bind ?_
  simp only [collect]
  cases sightAgain (stationOf (bytesAt mem param n)) r.stations with
  | some stations => exact sees_pure _
  | none =>
    cases memoryLeft with
    | false => exact sees_pure _
    | true => exact (lookStation_sees hok hn hbeacon).bind (sees_pure _)

end Messages

end BekenCam.Scan
