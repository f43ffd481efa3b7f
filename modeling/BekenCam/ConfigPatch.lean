import BekenCam.ConfigJson
import BekenCam.Overwriting

/-!
# A body as a list of updates

What a body writes does not depend on the config it is read into. Each member it reads is an update
of one field; `configFromJson` applies them all, and looks at the result.
-/
namespace BekenCam.Settings

open FlashKv Json ReadM
open Http (ascii)

/-- What a member writes. A string comes with its NUL. -/
inductive Update
  | mac (mac : List UInt8)
  | apSsid (text : List UInt8)
  | apChannel (channel : UInt8)
  | apEnabled (enabled : Bool)
  | staSsid (text : List UInt8)
  | staPassword (text : List UInt8)
  | staEnabled (enabled : Bool)
  | ledEnabled (enabled : Bool)
  | telnetEnabled (enabled : Bool)
  deriving DecidableEq

namespace Update

def key : Update → Key
  | mac _ => .mac
  | apSsid _ => .apSsid
  | apChannel _ => .apChannel
  | apEnabled _ => .apEnabled
  | staSsid _ => .staSsid
  | staPassword _ => .staPassword
  | staEnabled _ => .staEnabled
  | ledEnabled _ => .ledEnabled
  | telnetEnabled _ => .telnetEnabled

def apply (u : Update) (config : Config) : Config :=
  match u with
  | mac bytes => { config with mac := bytes }
  | apSsid text => { config with apSsid := writeAt config.apSsid 0 text }
  | apChannel channel => { config with apChannel := channel }
  | apEnabled enabled => { config with apEnabled := enabled }
  | staSsid text => { config with staSsid := writeAt config.staSsid 0 text }
  | staPassword text => { config with staPassword := writeAt config.staPassword 0 text }
  | staEnabled enabled => { config with staEnabled := enabled }
  | ledEnabled enabled => { config with ledEnabled := enabled }
  | telnetEnabled enabled => { config with telnetEnabled := enabled }

theorem apply_comm {u v : Update} (h : u.key ≠ v.key) (config : Config) :
    u.apply (v.apply config) = v.apply (u.apply config) := by
  cases u <;> cases v <;> first | rfl | exact absurd rfl h

/-- Where a text is copied again, its first copy does not show. -/
theorem writeAt_between (arr text other : List UInt8) :
    writeAt (writeAt (writeAt arr 0 text) 0 other) 0 text =
      writeAt (writeAt arr 0 other) 0 text := by
  have hdrop : ∀ (front rest : List UInt8) (n : ℕ),
      (front ++ rest).drop n = front.drop n ++ rest.drop (n - front.length) :=
    fun _ _ _ => List.drop_append
  have hbehind : (other ++ (text ++ arr.drop text.length).drop other.length).drop text.length =
      (other ++ arr.drop other.length).drop text.length := by
    have hall : text.drop (other.length + (text.length - other.length)) = [] :=
      List.drop_of_length_le (by omega)
    rw [hdrop other, hdrop other, List.drop_drop, List.drop_drop, hdrop text, hall, List.nil_append,
      List.drop_drop]
    congr 2
    omega
  simp only [writeAt_front, hbehind]

theorem apply_again (u : Update) (config : Config) :
    u.apply (u.apply config) = u.apply config := by
  cases u <;> simp [apply, writeAt_front]

theorem overwrites : Overwrites apply where
  again := apply_again
  between u v config := by
    by_cases hkey : u.key = v.key
    · cases u <;> cases v <;> first | (cases hkey; done) | simp [apply, writeAt_between]
    · rw [apply_comm hkey, apply_again, apply_comm hkey]

end Update

def applyAll (us : List Update) (config : Config) : Config := actAll Update.apply us config

/-! ## Reading the updates -/

def readUpdate (key : List UInt8) : ReadM (List Update) :=
  if key = ascii "mac" then do
    return [.mac (← readMac)]
  else if key = ascii "ap_ssid" then do
    return [.apSsid (← readString (some (configSsidMax + 1)))]
  else if key = ascii "ap_channel" then do
    let channel ← readNumber
    if channel > 255 then failure else return [.apChannel channel.toUInt8]
  else if key = ascii "ap_enabled" then do
    return [.apEnabled (← readBool)]
  else if key = ascii "sta_ssid" then do
    return [.staSsid (← readString (some (configSsidMax + 1)))]
  else if key = ascii "sta_password" then do
    return [.staPassword (← readString (some (configPasswordMax + 1)))]
  else if key = ascii "sta_enabled" then do
    return [.staEnabled (← readBool)]
  else if key = ascii "led_enabled" then do
    return [.ledEnabled (← readBool)]
  else if key = ascii "telnet_enabled" then do
    return [.telnetEnabled (← readBool)]
  else do
    skipValue
    return []

/-- A reader of one value, in the two ways. -/
theorem map_value {α : Type} (read : ReadM α) (u : α → Update) (config : Config) :
    (do return (u (← read)).apply config) =
      (applyAll · config) <$> (do return [u (← read)] : ReadM (List Update)) := by
  rw [map_bind]
  rfl

theorem map_ite {α β : Type} {f : α → β} {c : Prop} [Decidable c] {m n : ReadM β} {m' n' : ReadM α}
    (h : m = f <$> m') (h' : n = f <$> n') :
    (if c then m else n) = f <$> (if c then m' else n') := by
  split
  · exact h
  · exact h'

theorem readField_eq (key : List UInt8) (config : Config) :
    readField key config = (applyAll · config) <$> readUpdate key := by
  unfold readField readUpdate
  refine map_ite ?_ <| map_ite ?_ <| map_ite ?_ <| map_ite ?_ <| map_ite ?_ <| map_ite ?_ <|
    map_ite ?_ <| map_ite ?_ <| map_ite ?_ ?_
  · exact map_value readMac .mac config
  · exact map_value _ .apSsid config
  · rw [map_bind]
    congr 1
    funext channel
    exact map_ite rfl rfl
  · exact map_value readBool .apEnabled config
  · exact map_value _ .staSsid config
  · exact map_value _ .staPassword config
  · exact map_value readBool .staEnabled config
  · exact map_value readBool .ledEnabled config
  · exact map_value readBool .telnetEnabled config
  · rw [map_bind]
    rfl

def readMemberUpdates : ReadM (List Update) := do
  let key ← readString (some 24)
  if ← consume colon then readUpdate (cString key) else failure

theorem readMember_eq (config : Config) :
    readMember config = (applyAll · config) <$> readMemberUpdates := by
  unfold readMember readMemberUpdates
  simp only [map_bind]
  congr 1
  funext key
  congr 1
  funext separated
  split_ifs
  · exact readField_eq (cString key) config
  · rfl

def readMembersUpdates : ℕ → ReadM (List Update)
  | 0 => failure
  | fuel + 1 => do
    let us ← readMemberUpdates
    if ← consume comma then do
      let more ← readMembersUpdates fuel
      return us ++ more
    else return us

theorem readMembers_eq (fuel : ℕ) (config : Config) :
    readMembers fuel config = (applyAll · config) <$> readMembersUpdates fuel := by
  induction fuel generalizing config with
  | zero => rfl
  | succ fuel ih =>
    unfold readMembers readMembersUpdates
    rw [readMember_eq, bind_map_left, map_bind]
    congr 1
    funext us
    rw [map_bind]
    congr 1
    funext separated
    split_ifs
    · rw [ih, map_bind, map_eq_pure_bind]
      congr 1
      funext more
      simp only [map_pure, applyAll, actAll_append]
    · rfl

def readObjectUpdates (fuel : ℕ) : ReadM (List Update) := do
  if ← consume openBrace then
    if ← consume closeBrace then
      skipSpace
      return []
    else
      let us ← readMembersUpdates fuel
      if ← consume closeBrace then
        skipSpace
        return us
      else failure
  else failure

theorem readObject_eq (fuel : ℕ) (config : Config) :
    readObject fuel config = (applyAll · config) <$> readObjectUpdates fuel := by
  unfold readObject readObjectUpdates
  rw [map_bind]
  congr 1
  funext opened
  split_ifs
  · rw [map_bind]
    congr 1
    funext closed
    split_ifs
    · rw [map_bind]
      rfl
    · rw [readMembers_eq, bind_map_left, map_bind]
      congr 1
      funext us
      rw [map_bind]
      congr 1
      funext closed
      split_ifs
      · rw [map_bind]
        rfl
      · rfl
  · rfl

/-- What a body writes, if it can be read. -/
def updates (json : List UInt8) : Option (List Update) :=
  match readObjectUpdates json.length json with
  | (some us, []) => some us
  | _ => none

theorem updates_eq_some {json : List UInt8} {us : List Update} :
    updates json = some us ↔ Takes (readObjectUpdates json.length) json us [] := by
  unfold updates Takes
  rcases readObjectUpdates json.length json with ⟨_ | us', _ | ⟨b, r⟩⟩ <;> simp

theorem configFromJson_eq_updates {json : List UInt8} {config next : Config} :
    configFromJson json config = some next ↔
      ∃ us, updates json = some us ∧ applyAll us config = next ∧ isValid next = true := by
  rw [configFromJson_eq_some, readObject_eq, takes_map]
  constructor
  · rintro ⟨⟨us, htakes, happly⟩, hvalid⟩
    exact ⟨us, updates_eq_some.mpr htakes, happly, hvalid⟩
  · rintro ⟨us, hus, happly, hvalid⟩
    exact ⟨⟨us, updates_eq_some.mp hus, happly⟩, hvalid⟩

/-! ## The fields a body names -/

/-- The fields of a body, each as often as it is named. -/
def named (json : List UInt8) : List Key := ((updates json).getD []).map Update.key

/-- Every field the body names has the value it gives it: writing them again changes nothing. -/
def Holds (json : List UInt8) (config : Config) : Prop :=
  ∃ us, updates json = some us ∧ applyAll us config = config

theorem holds_configFromJson {json : List UInt8} {config next : Config}
    (h : configFromJson json config = some next) : Holds json next := by
  obtain ⟨us, hus, rfl, -⟩ := configFromJson_eq_updates.mp h
  exact ⟨us, hus, Update.overwrites.actAll_again us config⟩

/-- A body leaves the fields alone that it does not name. -/
theorem Holds.configFromJson {json other : List UInt8} {config next : Config}
    (hdisjoint : List.Disjoint (named json) (named other)) (hholds : Holds json config)
    (h : configFromJson other config = some next) : Holds json next := by
  obtain ⟨us, hus, hsame⟩ := hholds
  obtain ⟨vs, hvs, rfl, -⟩ := configFromJson_eq_updates.mp h
  refine ⟨us, hus, actAll_stays (fun u hu v hv => Update.apply_comm fun hkey => ?_) hsame⟩
  have hu' : u.key ∈ named json := by
    rw [named, hus]
    exact List.mem_map_of_mem hu
  have hv' : u.key ∈ named other := by
    rw [named, hvs, hkey]
    exact List.mem_map_of_mem hv
  exact hdisjoint hu' hv'

end BekenCam.Settings
