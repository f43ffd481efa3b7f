import BekenCam.ScanCollect

/-!
# One station for each network

The messages of a session are its history. A network is stored by its first sighting for which
memory is left; its station then shows the strongest of the sightings from there on. The counters of
the result are halfwords and count modulo `2 ^ 16`.
-/
namespace BekenCam.Scan

/-- A message to one of the two handlers, and whether memory is left for what it brings. -/
inductive Indication
  | station (message : List UInt8) (memoryLeft : Bool)
  | survey (message : List UInt8) (memoryLeft : Bool)
deriving DecidableEq

def Indication.message : Indication → List UInt8
  | .station message _ => message
  | .survey message _ => message

def Indication.memoryLeft : Indication → Bool
  | .station _ memoryLeft => memoryLeft
  | .survey _ memoryLeft => memoryLeft

def handle (collectSurvey : Bool) (r : ScanData) : Indication → Reads ScanData
  | .station message memoryLeft => scanIndAddHandler 0 message.length memoryLeft r
  | .survey message memoryLeft => scanSurveyAddHandler collectSurvey 0 message.length memoryLeft r

/-- The result of a session after these indications. -/
def collectAll (collectSurvey : Bool) (events : List Indication) : ScanData :=
  events.foldl (fun r e => valueOf (bytesMemory e.message) (handle collectSurvey r e)) .start

/-! ## What a history says -/

def Indication.sighting? : Indication → Option (ScanStation × Bool)
  | .station message memoryLeft => (sighting message).map fun x => (x, memoryLeft)
  | .survey _ _ => none

/-- The sightings, each with whether memory was left for it. -/
def sightings (events : List Indication) : List (ScanStation × Bool) :=
  events.filterMap Indication.sighting?

def storing (bssid : List UInt8) (x : ScanStation × Bool) : Bool := x.1.bssid = bssid ∧ x.2 = true

def Stored (xs : List (ScanStation × Bool)) (bssid : List UInt8) : Prop :=
  ∃ x ∈ xs, storing bssid x = true

instance (xs : List (ScanStation × Bool)) (bssid : List UInt8) : Decidable (Stored xs bssid) :=
  inferInstanceAs (Decidable (∃ x ∈ xs, _))

/-- The number of the sighting that stored the network. -/
def storedAt (xs : List (ScanStation × Bool)) (bssid : List UInt8) : ℕ := xs.findIdx (storing bssid)

/-- The sightings of a network since it was stored. -/
def since (xs : List (ScanStation × Bool)) (bssid : List UInt8) : List ScanStation :=
  ((xs.drop (storedAt xs bssid)).map (·.1)).filter fun x => x.bssid = bssid

/-- The station has the RSSI of the strongest sighting, and the channel of the first such one. -/
def Strongest (s : ScanStation) (xs : List ScanStation) : Prop :=
  ∃ front best back, xs = front ++ best :: back ∧ best.rssi = s.rssi ∧ best.channel = s.channel ∧
    (∀ x ∈ front, x.rssi < s.rssi) ∧ ∀ x ∈ back, x.rssi ≤ s.rssi

/-- Whether the handler asks for memory after this history. -/
def asks (collectSurvey : Bool) (before : List Indication) : Indication → Bool
  | .station message _ =>
    match sighting message with
    | some x => ¬ Stored (sightings before) x.bssid
    | none => false
  | .survey message _ => surveySize ≤ message.length ∧ collectSurvey = true

def fails (collectSurvey : Bool) (events : List Indication) (k : ℕ) : Bool :=
  match events[k]? with
  | some e => asks collectSurvey (events.take k) e && !e.memoryLeft
  | none => false

/-- The number of failed allocations. -/
def failed (collectSurvey : Bool) (events : List Indication) : ℕ :=
  (List.range events.length).countP (fails collectSurvey events)

structure Collected (collectSurvey : Bool) (events : List Indication) (r : ScanData) : Prop where
  distinct : (r.stations.map (·.bssid)).Nodup
  stored : ∀ b, b ∈ r.stations.map (·.bssid) ↔ Stored (sightings events) b
  order : (r.stations.map (·.bssid)).Pairwise
    (fun a b => storedAt (sightings events) a < storedAt (sightings events) b)
  strongest : ∀ s ∈ r.stations, Strongest s (since (sightings events) s.bssid)
  stationCount : r.stationCount = UInt16.ofNat r.stations.length
  indications : r.indications = UInt16.ofNat (sightings events).length
  dropped : r.dropped = UInt16.ofNat (failed collectSurvey events)

/-! ## One more event in a history -/

section Histories

variable {xs : List (ScanStation × Bool)} {x : ScanStation × Bool} {b : List UInt8}
  {events : List Indication} {e : Indication} {collectSurvey : Bool}

theorem sightings_concat :
    sightings (events ++ [e]) = sightings events ++ e.sighting?.toList := by
  rw [sightings, List.filterMap_append, sightings]
  cases h : e.sighting? <;> simp [h]

theorem stored_concat : Stored (xs ++ [x]) b ↔ Stored xs b ∨ storing b x = true := by
  simp [Stored, or_and_right, exists_or]

theorem storedAt_lt (h : Stored xs b) : storedAt xs b < xs.length :=
  List.findIdx_lt_length_of_exists h

theorem storedAt_concat (h : Stored xs b) : storedAt (xs ++ [x]) b = storedAt xs b := by
  rw [storedAt, List.findIdx_append]
  exact if_pos (storedAt_lt h)

theorem storedAt_new (h : ¬ Stored xs b) (hx : storing b x = true) :
    storedAt (xs ++ [x]) b = xs.length := by
  have hnone : xs.findIdx (storing b) = xs.length := by
    rw [List.findIdx_eq_length]
    intro y hy
    have hno : ¬ storing b y = true := fun hyes => h ⟨y, hy, hyes⟩
    simpa using hno
  rw [storedAt, List.findIdx_append, hnone, if_neg (lt_irrefl _)]
  simp [List.findIdx_cons, hx]

theorem since_concat (h : Stored xs b) :
    since (xs ++ [x]) b = since xs b ++ if x.1.bssid = b then [x.1] else [] := by
  rw [since, storedAt_concat h, List.drop_append_of_le_length (storedAt_lt h).le, List.map_append,
    List.filter_append, since]
  congr 1
  by_cases hb : x.1.bssid = b <;> simp [hb]

theorem since_new (h : ¬ Stored xs b) (hx : storing b x = true) : since (xs ++ [x]) b = [x.1] := by
  have hb : x.1.bssid = b := by
    have hboth : x.1.bssid = b ∧ x.2 = true := by simpa [storing] using hx
    exact hboth.1
  rw [since, storedAt_new h hx, List.drop_left' rfl]
  simp [hb]

theorem failed_concat :
    failed collectSurvey (events ++ [e]) =
      failed collectSurvey events + if asks collectSurvey events e && !e.memoryLeft then 1 else 0 := by
  have hbefore : ∀ k ∈ List.range events.length,
      (fails collectSurvey (events ++ [e]) k = true ↔ fails collectSurvey events k = true) := by
    intro k hk
    have hlt : k < events.length := List.mem_range.mp hk
    rw [fails, fails, List.getElem?_append_left hlt, List.take_append_of_le_length hlt.le]
  have hlast : fails collectSurvey (events ++ [e]) events.length =
      (asks collectSurvey events e && !e.memoryLeft) := by
    simp [fails]
  rw [failed, List.length_append, List.length_singleton, List.range_succ, List.countP_append,
    List.countP_congr hbefore, List.countP_singleton, hlast, failed]

/-- A sighting that stores nothing moves no other network. -/
theorem not_storing (h : Stored xs b) (hx : ¬ Stored xs x.1.bssid) : x.1.bssid ≠ b := by
  rintro rfl
  exact hx h

end Histories

/-! ## The stations after one more sighting -/

section Stations

variable {x s : ScanStation} {stations stations' : List ScanStation} {xs : List ScanStation}

@[simp] theorem heardAgain_bssid (x s : ScanStation) : (heardAgain x s).bssid = s.bssid := by
  unfold heardAgain
  split <;> rfl

theorem sightAgain_eq_none : sightAgain x stations = none ↔ x.bssid ∉ stations.map (·.bssid) := by
  induction stations with
  | nil => simp [sightAgain]
  | cons s stations ih =>
    by_cases hs : x.bssid = s.bssid <;> simp [sightAgain, hs, ih]

/-- The first station of the sender is heard again, and the others are as they were. -/
theorem sightAgain_eq_some (h : sightAgain x stations = some stations') :
    ∃ front s back, stations = front ++ s :: back ∧ s.bssid = x.bssid ∧
      stations' = front ++ heardAgain x s :: back := by
  induction stations generalizing stations' with
  | nil => cases h
  | cons s stations ih =>
    rw [sightAgain] at h
    split at h
    · next hs =>
      obtain rfl := Option.some.inj h
      exact ⟨[], s, stations, rfl, hs.symm, rfl⟩
    · obtain ⟨rest, hrest, rfl⟩ := Option.map_eq_some_iff.mp h
      obtain ⟨front, t, back, rfl, ht, rfl⟩ := ih hrest
      exact ⟨s :: front, t, back, rfl, ht, rfl⟩

theorem Strongest.concat (h : Strongest s xs) (x : ScanStation) :
    Strongest (heardAgain x s) (xs ++ [x]) := by
  obtain ⟨front, best, back, rfl, hrssi, hchannel, hfront, hback⟩ := h
  unfold heardAgain
  split
  · next hlt =>
    refine ⟨front ++ best :: back, x, [], rfl, rfl, rfl, fun y hy => ?_, by simp⟩
    show y.rssi < x.rssi
    rcases List.mem_append.mp hy with hy | hy
    · exact Int8.lt_of_le_of_lt (Int8.le_of_lt (hfront y hy)) hlt
    · rcases List.mem_cons.mp hy with rfl | hy
      · rwa [hrssi]
      · exact Int8.lt_of_le_of_lt (hback y hy) hlt
  · next hle =>
    refine ⟨front, best, back ++ [x], by simp, hrssi, hchannel, hfront, fun y hy => ?_⟩
    rcases List.mem_append.mp hy with hy | hy
    · exact hback y hy
    · obtain rfl := List.mem_singleton.mp hy
      exact Int8.not_lt.mp hle

theorem strongest_singleton (x : ScanStation) : Strongest x [x] :=
  ⟨[], x, [], rfl, rfl, rfl, by simp, by simp⟩

end Stations

/-! ## Runs of a session -/

section Runs

variable {collectSurvey : Bool} {events : List Indication} {e : Indication} {r r' : ScanData}
  {x : ScanStation}

theorem collected_nil : Collected collectSurvey [] .start where
  distinct := List.nodup_nil
  stored b := by simp [ScanData.start, sightings, Stored]
  order := List.Pairwise.nil
  strongest := by simp [ScanData.start]
  stationCount := rfl
  indications := rfl
  dropped := rfl

/-- The stations stay and no sighting came. -/
theorem Collected.silent (h : Collected collectSurvey events r) (he : e.sighting? = none)
    (hstations : r'.stations = r.stations) (hcount : r'.stationCount = r.stationCount)
    (hindications : r'.indications = r.indications)
    (hdropped : r'.dropped = r.dropped +
      UInt16.ofNat (if asks collectSurvey events e && !e.memoryLeft then 1 else 0)) :
    Collected collectSurvey (events ++ [e]) r' := by
  have hsame : sightings (events ++ [e]) = sightings events := by
    rw [sightings_concat, he, Option.toList_none, List.append_nil]
  constructor
  · rw [hstations]
    exact h.distinct
  · rw [hstations, hsame]
    exact h.stored
  · rw [hstations, hsame]
    exact h.order
  · rw [hstations, hsame]
    exact h.strongest
  · rw [hstations, hcount]
    exact h.stationCount
  · rw [hsame, hindications]
    exact h.indications
  · rw [hdropped, failed_concat, UInt16.ofNat_add, h.dropped]

/-- A network already stored keeps its strongest sighting. -/
theorem Collected.again (h : Collected collectSurvey events r)
    (he : e.sighting? = some (x, e.memoryLeft)) (hasks : asks collectSurvey events e = false)
    (hstations : sightAgain x r.stations = some r'.stations)
    (hcount : r'.stationCount = r.stationCount) (hindications : r'.indications = r.indications + 1)
    (hdropped : r'.dropped = r.dropped) : Collected collectSurvey (events ++ [e]) r' := by
  obtain ⟨front, s, back, hbefore, hs, hafter⟩ := sightAgain_eq_some hstations
  have hnames : r'.stations.map (·.bssid) = r.stations.map (·.bssid) := by
    rw [hbefore, hafter]
    simp
  have hstored : Stored (sightings events) x.bssid := by
    rw [← h.stored, hbefore, ← hs]
    simp
  have hconcat : sightings (events ++ [e]) = sightings events ++ [(x, e.memoryLeft)] := by
    rw [sightings_concat, he, Option.toList_some]
  constructor
  · rw [hnames]
    exact h.distinct
  · intro b
    rw [hnames, h.stored, hconcat, stored_concat]
    refine ⟨Or.inl, ?_⟩
    rintro (hb | hb)
    · exact hb
    · have hboth : x.bssid = b ∧ e.memoryLeft = true := by simpa [storing] using hb
      exact hboth.1 ▸ hstored
  · rw [hnames, hconcat]
    refine h.order.imp_of_mem fun ha hb hlt => ?_
    rwa [storedAt_concat ((h.stored _).mp ha), storedAt_concat ((h.stored _).mp hb)]
  · intro t ht
    have hnodup := h.distinct
    rw [hbefore, List.map_append, List.map_cons, List.nodup_middle, List.nodup_cons] at hnodup
    have hother : ∀ t ∈ front ++ back, Strongest t (since (sightings (events ++ [e])) t.bssid) := by
      intro t ht
      have hmem : t ∈ r.stations := by
        rw [hbefore]
        rcases List.mem_append.mp ht with ht | ht <;> simp [ht]
      have hne : x.bssid ≠ t.bssid := by
        rw [← hs]
        intro heq
        refine hnodup.1 (heq ▸ ?_)
        rw [← List.map_append]
        exact List.mem_map_of_mem ht
      rw [hconcat, since_concat ((h.stored _).mp (List.mem_map_of_mem hmem)), if_neg hne,
        List.append_nil]
      exact h.strongest t hmem
    rw [hafter] at ht
    rcases List.mem_append.mp ht with ht | ht
    · exact hother t (List.mem_append_left _ ht)
    · rcases List.mem_cons.mp ht with rfl | ht
      · have hmem : s ∈ r.stations := by
          rw [hbefore]
          simp
        rw [heardAgain_bssid, hconcat, since_concat ((h.stored _).mp (List.mem_map_of_mem hmem)),
          if_pos hs.symm]
        exact (h.strongest s hmem).concat x
      · exact hother t (List.mem_append_right _ ht)
  · have hlength := congrArg List.length hnames
    simp only [List.length_map] at hlength
    rw [hcount, h.stationCount, hlength]
  · rw [hindications, h.indications, hconcat, List.length_append, UInt16.ofNat_add]
    rfl
  · rw [hdropped, failed_concat, hasks, h.dropped]
    rfl

/-- Sightings since a network was stored are not those of a network that is not. -/
theorem since_other {xs : List (ScanStation × Bool)} {y : ScanStation × Bool} {b : List UInt8}
    (hb : Stored xs b) (hy : ¬ Stored xs y.1.bssid) : since (xs ++ [y]) b = since xs b := by
  rw [since_concat hb, if_neg (not_storing hb hy), List.append_nil]

/-- There is no memory for a new network. -/
theorem Collected.drop (h : Collected collectSurvey events r)
    (he : e.sighting? = some (x, false)) (hleft : e.memoryLeft = false)
    (hasks : asks collectSurvey events e = true) (hnew : ¬ Stored (sightings events) x.bssid)
    (hstations : r'.stations = r.stations) (hcount : r'.stationCount = r.stationCount)
    (hindications : r'.indications = r.indications + 1) (hdropped : r'.dropped = r.dropped + 1) :
    Collected collectSurvey (events ++ [e]) r' := by
  have hconcat : sightings (events ++ [e]) = sightings events ++ [(x, false)] := by
    rw [sightings_concat, he, Option.toList_some]
  have hstored : ∀ b, Stored (sightings (events ++ [e])) b ↔ Stored (sightings events) b := by
    intro b
    rw [hconcat, stored_concat]
    simp [storing]
  constructor
  · rw [hstations]
    exact h.distinct
  · intro b
    rw [hstations, hstored]
    exact h.stored b
  · rw [hstations, hconcat]
    refine h.order.imp_of_mem fun ha hb hlt => ?_
    rwa [storedAt_concat ((h.stored _).mp ha), storedAt_concat ((h.stored _).mp hb)]
  · intro t ht
    rw [hstations] at ht
    rw [hconcat, since_other ((h.stored _).mp (List.mem_map_of_mem ht)) hnew]
    exact h.strongest t ht
  · rw [hstations, hcount]
    exact h.stationCount
  · rw [hindications, h.indications, hconcat, List.length_append, UInt16.ofNat_add]
    rfl
  · rw [hdropped, failed_concat, hasks, hleft, h.dropped, UInt16.ofNat_add]
    rfl

/-- A new network gets the last station. -/
theorem Collected.store (h : Collected collectSurvey events r)
    (he : e.sighting? = some (x, true)) (hleft : e.memoryLeft = true)
    (hnew : ¬ Stored (sightings events) x.bssid) (hstations : r'.stations = r.stations ++ [x])
    (hcount : r'.stationCount = r.stationCount + 1)
    (hindications : r'.indications = r.indications + 1) (hdropped : r'.dropped = r.dropped) :
    Collected collectSurvey (events ++ [e]) r' := by
  have hconcat : sightings (events ++ [e]) = sightings events ++ [(x, true)] := by
    rw [sightings_concat, he, Option.toList_some]
  have hstoring : storing x.bssid (x, true) = true := by simp [storing]
  have hnames : r'.stations.map (·.bssid) = r.stations.map (·.bssid) ++ [x.bssid] := by
    rw [hstations]
    simp
  have hfresh : x.bssid ∉ r.stations.map (·.bssid) := fun hmem => hnew ((h.stored _).mp hmem)
  constructor
  · rw [hnames, ← List.concat_eq_append]
    exact h.distinct.concat hfresh
  · intro b
    rw [hnames, hconcat, stored_concat, List.mem_append, h.stored, List.mem_singleton]
    simp [storing, eq_comm]
  · rw [hnames, hconcat, List.pairwise_append]
    refine ⟨h.order.imp_of_mem fun ha hb hlt => ?_, List.pairwise_singleton _ _, fun a ha b hb => ?_⟩
    · rwa [storedAt_concat ((h.stored _).mp ha), storedAt_concat ((h.stored _).mp hb)]
    · obtain rfl := List.mem_singleton.mp hb
      rw [storedAt_concat ((h.stored _).mp ha), storedAt_new hnew hstoring]
      exact storedAt_lt ((h.stored _).mp ha)
  · intro t ht
    rw [hstations] at ht
    rw [hconcat]
    rcases List.mem_append.mp ht with ht | ht
    · rw [since_other ((h.stored _).mp (List.mem_map_of_mem ht)) hnew]
      exact h.strongest t ht
    · obtain rfl := List.mem_singleton.mp ht
      rw [since_new hnew hstoring]
      exact strongest_singleton t
  · rw [hstations, hcount, h.stationCount, List.length_append, UInt16.ofNat_add]
    rfl
  · rw [hindications, h.indications, hconcat, List.length_append, UInt16.ofNat_add]
    rfl
  · rw [hdropped, failed_concat, hleft, h.dropped]
    simp

theorem Collected.collect (h : Collected collectSurvey events r) {message : List UInt8}
    {memoryLeft : Bool} (hx : sighting message = some x) :
    Collected collectSurvey (events ++ [.station message memoryLeft])
      (collect memoryLeft r x) := by
  have he : (Indication.station message memoryLeft).sighting? = some (x, memoryLeft) := by
    rw [Indication.sighting?, hx]
    rfl
  have hasks : asks collectSurvey events (.station message memoryLeft) =
      decide (¬ Stored (sightings events) x.bssid) := by
    rw [asks, hx]
  rw [Scan.collect]
  cases hagain : sightAgain x r.stations with
  | some stations =>
    refine h.again he ?_ hagain rfl rfl rfl
    have hin : x.bssid ∈ r.stations.map (·.bssid) := by
      by_contra hout
      rw [sightAgain_eq_none.mpr hout] at hagain
      cases hagain
    rw [hasks]
    simpa using (h.stored _).mp hin
  | none =>
    have hnew : ¬ Stored (sightings events) x.bssid := fun hstored =>
      sightAgain_eq_none.mp hagain ((h.stored _).mpr hstored)
    cases memoryLeft with
    | false => exact h.drop he rfl (by simpa [hasks] using hnew) hnew rfl rfl rfl rfl
    | true => exact h.store he rfl hnew rfl rfl rfl rfl

/-- What an event does to the result, reading nothing outside its message. -/
theorem handle_sees (collectSurvey : Bool) (r : ScanData) (e : Indication) :
    ∃ r', Sees (bytesMemory e.message) (· < e.message.length) (handle collectSurvey r e) r' ∧
      ∀ events, Collected collectSurvey events r → Collected collectSurvey (events ++ [e]) r' := by
  cases e with
  | station message memoryLeft =>
    have hsees : Sees (bytesMemory message) (· < message.length)
        (scanIndAddHandler 0 message.length memoryLeft r) _ :=
      scanIndAddHandler_sees (fun i hi => by omega) memoryLeft r
    rw [bytesAt_bytesMemory] at hsees
    refine ⟨_, hsees, fun events h => ?_⟩
    cases hx : sighting message with
    | some x => exact h.collect hx
    | none =>
      refine h.silent ?_ rfl rfl rfl ?_
      · rw [Indication.sighting?, hx]
        rfl
      · simp [asks, hx]
  | survey message memoryLeft =>
    have hok : ∀ i < message.length, 0 + i < message.length := fun i hi => by omega
    obtain ⟨survey, hsees⟩ := scanSurveyAddHandler_sees (bytesMemory message) (· < message.length)
      hok collectSurvey memoryLeft r
    refine ⟨_, hsees, fun events h => ?_⟩
    split
    · next hfails =>
      refine h.silent rfl rfl rfl rfl ?_
      simp [asks, hfails, Indication.memoryLeft]
    · next hkept =>
      refine h.silent rfl rfl rfl rfl ?_
      rw [if_neg]
      · simp
      · simpa [asks, Indication.memoryLeft] using hkept

theorem collectAll_concat :
    collectAll collectSurvey (events ++ [e]) = valueOf (bytesMemory e.message)
      (handle collectSurvey (collectAll collectSurvey events) e) := by
  simp [collectAll]

theorem collected (collectSurvey : Bool) (events : List Indication) :
    Collected collectSurvey events (collectAll collectSurvey events) := by
  induction events using List.reverseRecOn with
  | nil => exact collected_nil
  | append_singleton events e ih =>
    obtain ⟨r', hsees, hstep⟩ := handle_sees collectSurvey (collectAll collectSurvey events) e
    rw [collectAll_concat, hsees.value]
    exact hstep events ih

end Runs

/-- Over every session the stations are the networks stored, each as strong as it was heard since;
the counters are right modulo `2 ^ 16`, and no byte outside a message is read. -/
theorem scan_collection (collectSurvey : Bool) (events : List Indication) :
    Collected collectSurvey events (collectAll collectSurvey events) ∧
      ∀ e, ∀ i ∈ (handle collectSurvey (collectAll collectSurvey events) e).calls
        (memory (bytesMemory e.message)) (), i < e.message.length := by
  refine ⟨collected collectSurvey events, fun e => ?_⟩
  obtain ⟨r', hsees, -⟩ := handle_sees collectSurvey (collectAll collectSurvey events) e
  exact hsees.inside

/-- A beacon of nothing but its fixed part. -/
def bareBeacon : List UInt8 := 36 :: List.replicate 47 0

/-- As many indications as a halfword has values leave their counter at zero. -/
theorem scan_indications_wrap : ¬ ∀ (collectSurvey : Bool) (events : List Indication),
    (collectAll collectSurvey events).indications.toNat = (sightings events).length := by
  intro h
  have hsights : ∀ n, (sightings (List.replicate n (.station bareBeacon true))).length = n := by
    intro n
    induction n with
    | zero => rfl
    | succ n ih =>
      have hone : (Indication.station bareBeacon true).sighting?.toList.length = 1 := by decide
      rw [List.replicate_succ', sightings_concat, List.length_append, ih, hone]
  have hcount := (collected false (List.replicate (2 ^ 16) (.station bareBeacon true))).indications
  have hclaim := h false (List.replicate (2 ^ 16) (.station bareBeacon true))
  rw [hcount, hsights] at hclaim
  simp at hclaim

end BekenCam.Scan
