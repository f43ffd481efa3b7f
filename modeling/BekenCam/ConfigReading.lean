import BekenCam.ConfigDialect
import BekenCam.ConfigMemory

/-!
# What a body is accepted for

The reader over memory accepts the objects of the dialect whose settings are valid, and nothing
else. What it leaves is the settings it was given with the members written over them.
-/
namespace BekenCam.Settings

open FlashKv Json JsonSyntax
open Http (ascii)

/-! ## What a list of updates leaves -/

inductive FieldValue
  | bytes (b : List UInt8)
  | number (n : UInt8)
  | flag (b : Bool)
  deriving DecidableEq

def Config.field (config : Config) : Key → FieldValue
  | .mac => .bytes config.mac
  | .apSsid => .bytes config.apSsid
  | .apChannel => .number config.apChannel
  | .apEnabled => .flag config.apEnabled
  | .staSsid => .bytes config.staSsid
  | .staPassword => .bytes config.staPassword
  | .staEnabled => .flag config.staEnabled
  | .ledEnabled => .flag config.ledEnabled
  | .telnetEnabled => .flag config.telnetEnabled

theorem Update.apply_field (u : Update) (config : Config) {k : Key} (h : u.key ≠ k) :
    (u.apply config).field k = config.field k := by
  cases u <;> cases k <;> first | rfl | exact absurd rfl h

/-- A field that no update names stays. -/
theorem applyAll_field (us : List Update) (config : Config) {k : Key}
    (h : ∀ u ∈ us, u.key ≠ k) : (applyAll us config).field k = config.field k := by
  induction us generalizing config with
  | nil => rfl
  | cons u us ih =>
    have hrest := ih (u.apply config) fun v hv => h v (List.mem_cons_of_mem _ hv)
    exact hrest.trans (u.apply_field config (h u List.mem_cons_self))

/-- The last update of a field shows: writing it again changes nothing. -/
theorem applyAll_last {u : Update} {newer : List Update} (h : ∀ v ∈ newer, v.key ≠ u.key)
    (older : List Update) (config : Config) :
    u.apply (applyAll (older ++ u :: newer) config) = applyAll (older ++ u :: newer) config := by
  have hcomm : ∀ v ∈ newer, ∀ c, u.apply (v.apply c) = v.apply (u.apply c) :=
    fun v hv => Update.apply_comm (h v hv).symm
  rw [applyAll, actAll_append, actAll_cons, act_actAll_comm hcomm, Update.apply_again]

/-! ## The body in memory -/

theorem configFromJson_iff {json : List UInt8} {config next : Config} :
    configFromJson json config = some next ↔ ∃ d us, Document.text d = json ∧
      DocumentWrites d us ∧ isValid (applyAll us config) = true ∧ next = applyAll us config := by
  rw [configFromJson_eq_updates]
  constructor
  · rintro ⟨us, hus, rfl, hvalid⟩
    obtain ⟨d, hd, hwrites⟩ := updates_iff.mp hus
    exact ⟨d, us, hd, hwrites, hvalid, rfl⟩
  · rintro ⟨d, us, hd, hwrites, hvalid, rfl⟩
    exact ⟨us, updates_iff.mpr ⟨d, hd, hwrites⟩, rfl, hvalid⟩

/-- For every memory, length and settings: nothing behind the body is looked at; the body is
accepted exactly when it is an object of the dialect that leaves valid settings; these are then
the members written from left to right, and on a refusal nothing has changed. -/
theorem config_from_json_dialect (mem : ℕ → UInt8) (length : ℕ) (config : Config) :
    ∃ ok next looked, Memory.configFromJson mem length config = (ok, next, looked) ∧
      (∀ a ∈ looked, a < length) ∧
      (ok = true ↔ ∃ d us, Document.text d = Memory.body mem length ∧ DocumentWrites d us ∧
        isValid (applyAll us config) = true) ∧
      (ok = false → next = config) ∧
      (ok = true → ∀ d us, Document.text d = Memory.body mem length → DocumentWrites d us →
        next = applyAll us config ∧
        (∀ k, (∀ u ∈ us, u.key ≠ k) → next.field k = config.field k) ∧
        ∀ older u newer, us = older ++ u :: newer → (∀ v ∈ newer, v.key ≠ u.key) →
          u.apply next = next) := by
  obtain ⟨looked, hlooked, hrun⟩ := Memory.configFromJson_eq mem length config
  cases hresult : configFromJson (Memory.body mem length) config with
  | none =>
    rw [hresult] at hrun
    refine ⟨false, config, looked, hrun, hlooked, ⟨nofun, ?_⟩, fun _ => rfl, nofun⟩
    rintro ⟨d, us, hd, hwrites, hvalid⟩
    have hsome := configFromJson_iff.mpr ⟨d, us, hd, hwrites, hvalid, rfl⟩
    rw [hresult] at hsome
    cases hsome
  | some next =>
    rw [hresult] at hrun
    obtain ⟨d, us, hd, hwrites, hvalid, hnext⟩ := configFromJson_iff.mp hresult
    refine ⟨true, next, looked, hrun, hlooked, ⟨fun _ => ⟨d, us, hd, hwrites, hvalid⟩, fun _ => rfl⟩,
      nofun, fun _ d' us' hd' hwrites' => ?_⟩
    -- a body writes the same however it is taken apart
    have hus := updates_iff.mpr ⟨d, hd, hwrites⟩
    rw [updates_iff.mpr ⟨d', hd', hwrites'⟩] at hus
    obtain rfl := Option.some.inj hus
    subst hnext
    refine ⟨rfl, fun k hk => applyAll_field us' config hk, ?_⟩
    rintro older u newer rfl hnewer
    exact applyAll_last hnewer older config

end BekenCam.Settings
