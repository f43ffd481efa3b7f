import BekenCam.ConfigModel
import BekenCam.FlashKvRefinement

/-!
# Settings survive a reboot

Nine keys with values of at most 256 bytes always fit into the sector, so every write of
`config_save` succeeds. What `config_load` reads afterwards is the map those nine writes
leave behind; an empty string is stored as no value and comes back as the default.
-/
namespace BekenCam.Settings

open FlashKv

/-! ## Saving -/

/-- The numbers of the stored keys. -/
def settingKeys : Finset UInt16 := {1, 2, 3, 4, 5, 6, 7, 8, 9}

/-- The sector holds no value under any other key. -/
def OnlySettings (s : Sector) : Prop := ∀ k, (readMap s).lookup k ≠ none → k ∈ settingKeys

/-- The writes of `config_save`, in order. -/
def settingsWrites (g : Config) : List WriteCall :=
  [.set 1 (.bytes g.mac), .set 2 (.bytes (cString g.apSsid)), .set 3 (.bytes [g.apChannel]),
    .set 4 (.bytes [if g.apEnabled then 1 else 0]), .set 5 (.bytes (cString g.staSsid)),
    .set 6 (.bytes (cString g.staPassword)), .set 7 (.bytes [if g.staEnabled then 1 else 0]),
    .set 9 (.bytes [if g.telnetEnabled then 1 else 0]),
    .set 8 (.bytes [if g.ledEnabled then 1 else 0])]

theorem configSave_eq (g : Config) : configSave g =
    flashUnprotect >>= fun _ => keepAll (.ok ()) ((settingsWrites g).map WriteCall.prog) := rfl

theorem liveSize_settings {m : UInt16 → Option (List UInt8)}
    (hkeys : ∀ k, m k ≠ none → k ∈ settingKeys) (hlen : ∀ k v, m k = some v → v.length ≤ 256) :
    liveSize m ≤ 4096 := by
  have h := mapWeight_le weight allKeys settingKeys m 264 hkeys
    (fun k v hv => recordSize_le (hlen k v hv))
  have hcard : settingKeys.card = 9 := rfl
  rw [hcard] at h
  simp only [liveSize, headerSize]
  omega

/-- A setting can always be written. -/
theorem exec_setting {w : WriteCall} (hw : w.Valid) (hkey : w.key ∈ settingKeys) {s : Sector}
    (hs : OnlySettings s) : (exec w.prog s).1 = .ok () ∧
      kvMap (exec w.prog s).2 = newMap s w ∧ OnlySettings (exec w.prog s).2 := by
  have hlook : (readMap s).lookup = kvMap s := readKey_eq s
  have hnew : ∀ k, newMap s w k ≠ none → k ∈ settingKeys := by
    intro k hk
    by_cases hkw : k = w.key
    · rw [hkw]
      exact hkey
    · rw [newMap, Function.update_of_ne hkw, ← hlook] at hk
      exact hs k hk
  have hlen : ∀ k v, newMap s w k = some v → v.length ≤ 256 := by
    intro k v hv
    by_cases hkw : k = w.key
    · rw [hkw, newMap, Function.update_self, liveValue] at hv
      split_ifs at hv
      cases hv
      exact hw.storable.2
    · rw [newMap, Function.update_of_ne hkw] at hv
      exact (kvMap_some hv).2.2
  have hok : (exec w.prog s).1 = .ok () := by
    rw [exec_write hw, if_pos (liveSize_settings hnew hlen)]
    split_ifs <;> rfl
  have hmap := kvMap_of_ok hok
  refine ⟨hok, hmap, fun k hk => hnew k ?_⟩
  rw [← hmap, ← readKey_eq]
  exact hk

/-- Nine writes, one after the other. -/
theorem exec_keepAll (ws : List WriteCall) (hw : ∀ w ∈ ws, w.Valid ∧ w.key ∈ settingKeys)
    {s : Sector} (hs : OnlySettings s) : ∃ s',
      exec (keepAll (.ok ()) (ws.map WriteCall.prog)) s = (.ok (), s') ∧
        kvMap s' = ws.foldl (fun m w => Function.update m w.key (liveValue w.value)) (kvMap s) := by
  induction ws generalizing s with
  | nil => exact ⟨s, rfl, rfl⟩
  | cons w ws ih =>
    obtain ⟨hvalid, hkey⟩ := hw w (by simp)
    obtain ⟨hok, hmap, hs'⟩ := exec_setting hvalid hkey hs
    obtain ⟨s', hrun, hfold⟩ := ih (fun w hw' => hw w (by simp [hw'])) hs'
    refine ⟨s', ?_, ?_⟩
    · rw [List.map_cons, keepAll, exec_bind_of (Prod.ext hok rfl)]
      exact hrun
    · rw [hfold, hmap]
      rfl

/-- What a saved field reads as. -/
def stored (g : Config) : Key → Option (List UInt8)
  | .mac => liveValue g.mac
  | .apSsid => liveValue (cString g.apSsid)
  | .apChannel => some [g.apChannel]
  | .apEnabled => some [if g.apEnabled then 1 else 0]
  | .staSsid => liveValue (cString g.staSsid)
  | .staPassword => liveValue (cString g.staPassword)
  | .staEnabled => some [if g.staEnabled then 1 else 0]
  | .ledEnabled => some [if g.ledEnabled then 1 else 0]
  | .telnetEnabled => some [if g.telnetEnabled then 1 else 0]

@[simp] theorem liveValue_singleton (b : UInt8) : liveValue [b] = some [b] := rfl

theorem foldl_settingsWrites (g : Config) (m : UInt16 → Option (List UInt8)) (key : Key) :
    (settingsWrites g).foldl (fun m w => Function.update m w.key (liveValue w.value)) m
      key.number = stored g key := by
  cases key <;> simp [settingsWrites, Key.number, WriteCall.key, WriteCall.value,
    Source.content, stored]

theorem length_cString_lt {src : List UInt8} (h : (0 : UInt8) ∈ src) :
    (cString src).length < src.length := by
  have hprefix : cString src <+: src := List.takeWhile_prefix _
  rcases hprefix.length_le.lt_or_eq with hlt | heq
  · exact hlt
  · rw [← hprefix.eq_of_length heq] at h
    exact absurd h (zero_notMem_cString src)

/-! ## Loading -/

section Typed

variable {s : Sector} {key : UInt16} (hkey : key ≠ flashKvKeyNone)

include hkey

theorem exec_flashKvGetU8 {b : UInt8} (h : kvMap s key = some [b]) (dst : UInt8) :
    exec (flashKvGetU8 key dst) s = ((.ok (), b), s) := by
  rw [flashKvGetU8, exec_bind_of (exec_flashKvGet hkey true 1 1 s), h]
  rfl

theorem exec_flashKvGetBool {b : Bool} (h : kvMap s key = some [if b then 1 else 0]) (dst : Bool) :
    exec (flashKvGetBool key dst) s = ((.ok (), b), s) := by
  rw [flashKvGetBool, exec_bind_of (exec_flashKvGetU8 hkey h 0)]
  cases b <;> rfl

/-- A string comes back terminated; one that is not stored leaves the default. -/
theorem exec_flashKvGetString {v : List UInt8} (h : kvMap s key = liveValue v) (dst : List UInt8)
    (hlen : v.length < dst.length) (hv : (0 : UInt8) ∉ v) (hdst : v = [] → cString dst = []) :
    ∃ ret dst', exec (flashKvGetString key dst) s = ((ret, dst'), s) ∧ cString dst' = v := by
  rw [flashKvGetString, if_neg (by omega), exec_bind_of (exec_flashKvGet hkey true _ 0 s), h]
  by_cases hnil : v = []
  · rw [hnil]
    exact ⟨_, dst, rfl, hdst hnil⟩
  · have ha : getAnswer (liveValue v) true (dst.length - 1) 0 = (.ok v.length, v) := by
      rw [liveValue, if_neg hnil]
      simp only [getAnswer, ne_eq, not_true_eq_false, false_and, if_false, if_true]
      rw [if_neg (by omega)]
    have hpos : v.length > 0 := List.length_pos_iff.mpr hnil
    have hcut : writeAt (writeAt dst 0 v) v.length [0] = v ++ 0 :: dst.drop (v.length + 1) := by
      simp [writeAt, List.drop_drop]
    refine ⟨.ok v.length, writeAt (writeAt dst 0 v) v.length [0], ?_, ?_⟩
    · rw [ha]
      dsimp only
      rw [if_pos hpos]
      rfl
    · rw [hcut]
      exact cString_append_zero hv _

end Typed

/-- What `config_save` expects of the settings: a valid address, a name for the access
point, and terminated strings. -/
structure Config.Saveable (g : Config) : Prop where
  mac_size : g.mac.length = 6
  mac_valid : configMacIsValid g.mac = true
  apSsid_size : g.apSsid.length = configSsidMax + 1
  apSsid_terminated : 0 ∈ g.apSsid
  apSsid_named : cString g.apSsid ≠ []
  staSsid_size : g.staSsid.length = configSsidMax + 1
  staSsid_terminated : 0 ∈ g.staSsid
  staPassword_size : g.staPassword.length = configPasswordMax + 1
  staPassword_terminated : 0 ∈ g.staPassword

/-- Equal in every field, the strings up to their terminator. -/
structure Config.Same (g g' : Config) : Prop where
  mac : g.mac = g'.mac
  apSsid : cString g.apSsid = cString g'.apSsid
  apChannel : g.apChannel = g'.apChannel
  apEnabled : g.apEnabled = g'.apEnabled
  staSsid : cString g.staSsid = cString g'.staSsid
  staPassword : cString g.staPassword = cString g'.staPassword
  staEnabled : g.staEnabled = g'.staEnabled
  ledEnabled : g.ledEnabled = g'.ledEnabled
  telnetEnabled : g.telnetEnabled = g'.telnetEnabled

theorem settingsWrites_valid {g : Config} (hg : g.Saveable) :
    ∀ w ∈ settingsWrites g, w.Valid ∧ w.key ∈ settingKeys := by
  have h1 := length_cString_lt hg.apSsid_terminated
  have h2 := length_cString_lt hg.staSsid_terminated
  have h3 := length_cString_lt hg.staPassword_terminated
  have h4 := hg.mac_size
  rw [hg.apSsid_size, configSsidMax] at h1
  rw [hg.staSsid_size, configSsidMax] at h2
  rw [hg.staPassword_size, configPasswordMax] at h3
  simp only [settingsWrites, List.forall_mem_cons, List.not_mem_nil, false_imp_iff, implies_true,
    and_true]
  refine ⟨?_, ?_, ?_, ?_, ?_, ?_, ?_, ?_, ?_⟩ <;>
    refine ⟨⟨by decide, ?_, .inr rfl⟩, by simp only [WriteCall.key]; decide⟩ <;>
    simp only [Source.len, List.length_singleton] <;> omega

theorem exec_loadMac {s : Sector} {mac : List UInt8} (h : kvMap s 1 = some mac)
    (hlen : mac.length = 6) (hvalid : configMacIsValid mac = true) (entropy : List UInt8) :
    exec (loadMac entropy) s = (mac, s) := by
  have ha : getAnswer (some mac) true 6 6 = (.ok 6, mac) := by simp [getAnswer, hlen]
  have hget : exec (flashKvGet Key.mac.number true 6 6) s = ((.ok 6, mac), s) := by
    rw [exec_flashKvGet (by decide), show kvMap s Key.mac.number = some mac from h, ha]
  rw [loadMac, exec_bind_of hget]
  dsimp only
  rw [if_pos ⟨rfl, hvalid⟩]
  rfl

/-- What `config_load` finds in a sector that holds the saved settings. -/
theorem exec_configLoad {s : Sector} {g : Config} (hg : g.Saveable)
    (h : ∀ key : Key, kvMap s key.number = stored g key) :
    ∃ loaded : Config, loaded.Same g ∧
      ∀ entropy, exec (configLoad entropy kDefaults) s = (loaded, s) := by
  have hmac : kvMap s 1 = some g.mac := by
    have hne : g.mac ≠ [] := by
      intro hc
      have hlen := hg.mac_size
      simp [hc] at hlen
    rw [show (1 : UInt16) = Key.mac.number from rfl, h, stored, liveValue, if_neg hne]
  have hap := length_cString_lt hg.apSsid_terminated
  have hsta := length_cString_lt hg.staSsid_terminated
  have hpass := length_cString_lt hg.staPassword_terminated
  rw [hg.apSsid_size] at hap
  rw [hg.staSsid_size] at hsta
  rw [hg.staPassword_size] at hpass
  set g₀ := applyGeneratedDefaults { kDefaults with mac := g.mac } with hg₀
  have hsize : g₀.apSsid.length = configSsidMax + 1 := by
    rw [hg₀, applyGeneratedDefaults]
    rfl
  obtain ⟨r1, ssid, hssid, hs1⟩ := exec_flashKvGetString (s := s) (by decide) (h .apSsid)
    g₀.apSsid (by omega) (zero_notMem_cString _) (fun hc => absurd hc hg.apSsid_named)
  obtain ⟨r2, sta, hstaRun, hs2⟩ := exec_flashKvGetString (s := s) (by decide) (h .staSsid)
    g₀.staSsid hsta (zero_notMem_cString _)
    (fun _ => rfl)
  obtain ⟨r3, pass, hpassRun, hs3⟩ := exec_flashKvGetString (s := s) (by decide) (h .staPassword)
    g₀.staPassword hpass (zero_notMem_cString _)
    (fun _ => rfl)
  refine ⟨⟨g.mac, ssid, g.apChannel, g.apEnabled, sta, pass, g.staEnabled, g.ledEnabled,
    g.telnetEnabled⟩, ⟨rfl, hs1, rfl, rfl, hs2, hs3, rfl, rfl, rfl⟩, fun entropy => ?_⟩
  rw [configLoad, exec_bind_of (exec_loadMac hmac hg.mac_size hg.mac_valid entropy)]
  dsimp only
  rw [← hg₀, exec_bind_of hssid]
  dsimp only
  rw [exec_bind_of (exec_flashKvGetU8 (by decide) (h .apChannel) _),
    exec_bind_of (exec_flashKvGetBool (by decide) (h .apEnabled) _), exec_bind_of hstaRun,
    exec_bind_of hpassRun, exec_bind_of (exec_flashKvGetBool (by decide) (h .staEnabled) _),
    exec_bind_of (exec_flashKvGetBool (by decide) (h .telnetEnabled) _),
    exec_bind_of (exec_flashKvGetBool (by decide) (h .ledEnabled) _)]
  rfl

/-- Every write succeeds, and each key reads as its field. -/
theorem exec_configSave {s : Sector} (hs : OnlySettings s) {g : Config} (hg : g.Saveable) :
    ∃ s', exec (configSave g) s = (.ok (), s') ∧
      ∀ key : Key, kvMap s' key.number = stored g key := by
  obtain ⟨s', hrun, hmap⟩ := exec_keepAll (settingsWrites g) (settingsWrites_valid hg) hs
  refine ⟨s', by rw [configSave_eq, exec_flashUnprotect_bind, hrun], fun key => ?_⟩
  rw [hmap]
  exact foldl_settingsWrites g (kvMap s) key

/-- Saved settings come back after a reboot: every write succeeds, and whatever the
random source would deliver, the settings loaded are the ones saved and nothing is
written. -/
theorem config_survives_reboot (s : Sector) (hs : OnlySettings s) (g : Config)
    (hg : g.Saveable) : ∃ s' loaded, exec (configSave g) s = (.ok (), s') ∧
      (∀ entropy, exec (configLoad entropy kDefaults) s' = (loaded, s')) ∧ loaded.Same g := by
  obtain ⟨s', hrun, hstored⟩ := exec_configSave hs hg
  obtain ⟨loaded, hsame, hload⟩ := exec_configLoad hg hstored
  exact ⟨s', loaded, hrun, hload, hsame⟩

/-- An open access point named `cam`, saved to a blank sector. -/
def firstConfig : Config :=
  { kDefaults with
    mac := [0xC8, 0x47, 0x8C, 0x01, 0x02, 0x04]
    apSsid := [0x63, 0x61, 0x6D] ++ List.replicate 30 0 }

theorem config_survives_first_reboot : ∃ s' loaded,
    exec (configSave firstConfig) Sector.erased = (.ok (), s') ∧
      (∀ entropy, exec (configLoad entropy kDefaults) s' = (loaded, s')) ∧
      loaded.Same firstConfig := by
  refine config_survives_reboot Sector.erased (fun k hk => ?_) firstConfig ?_
  · exact absurd ((congrFun (readKey_eq _) k).trans (kvMap_erased k)) hk
  · constructor <;> decide

end BekenCam.Settings
