import BekenCam.ConfigStorage
import BekenCam.FlashChip

/-!
# The address across boots

`config_load` stores a new address without `flash_unprotect`, which `config_save` and
`flash_kv_erase` do call. The boot loader leaves the block-protect bits set, so the write is
lost and the next boot makes another address.
-/
namespace BekenCam.Settings

open FlashKv Prog

/-- The settings after the load of a boot. -/
def boot (entropy : List UInt8) (c : Chip) : Config × Chip :=
  (configLoad entropy kDefaults).run chip c

/-- The address a boot takes from the store. -/
def storedMac (s : Sector) : Option (List UInt8) :=
  (kvMap s Key.mac.number).filter fun mac => decide (mac.length = 6) && configMacIsValid mac

/-- The record of an address fits beside the other live records. -/
def MacFits (s : Sector) : Prop :=
  liveSize (Function.update (kvMap s) Key.mac.number none) + recordSize 6 ≤ kvSectorSize

/-- An address is stored, or a new one can be. -/
def KeepsMac (c : Chip) : Prop :=
  storedMac c.sector ≠ none ∨ (c.isProtected = false ∧ MacFits c.sector)

/-! ## Making an address -/

theorem length_generateMac (entropy : List UInt8) : (generateMac entropy).length = 6 := rfl

theorem configMacIsValid_generateMac (entropy : List UInt8) :
    configMacIsValid (generateMac entropy) = true := by
  simp only [configMacIsValid, generateMac, bekenOui, List.cons_append, List.getD_cons_zero]
  simp [List.replicate]
  decide

theorem macCall_valid (entropy : List UInt8) :
    (WriteCall.set Key.mac.number (.bytes (generateMac entropy))).Valid := by
  refine ⟨by decide, ?_, .inr rfl⟩
  simp [Source.len, length_generateMac]

theorem liveSize_newMac (s : Sector) (entropy : List UInt8) :
    liveSize (newMap s (.set Key.mac.number (.bytes (generateMac entropy)))) =
      liveSize (Function.update (kvMap s) Key.mac.number none) + recordSize 6 := by
  have hmem : Key.mac.number ∈ allKeys := mem_allKeys (by decide)
  have hmap : newMap s (.set Key.mac.number (.bytes (generateMac entropy))) =
      Function.update (Function.update (kvMap s) Key.mac.number none) Key.mac.number
        (some (generateMac entropy)) := (Function.update_idem _ _ _).symm
  rw [hmap, liveSize, mapWeight_update weight _ _ hmem _ (Function.update_self _ _ _), liveSize,
    Nat.add_assoc]
  rfl

/-! ## One boot -/

section Boot

variable (entropy : List UInt8) (c : Chip)

/-- Behind the address a boot only reads. -/
theorem boot_loadMac : ((boot entropy c).1.mac, (boot entropy c).2) =
    (loadMac entropy).run chip c := by
  have hread : ∀ off n, ∃ off' n', FlashCmd.flashRead off n = .flashRead off' n' :=
    fun off n => ⟨off, n, rfl⟩
  have hstring := fun key dst => run_reads (only_flashKvGetString hread key dst)
  have hbool := fun key dst => run_reads (only_flashKvGetBool hread key dst)
  have hu8 := fun key dst => run_reads (only_flashKvGetU8 hread key dst)
  simp only [boot, configLoad, run_bind, hstring, hbool, hu8]
  rfl

theorem run_getMac : (flashKvGet Key.mac.number true 6 6).run chip c =
    (getAnswer (kvMap c.sector Key.mac.number) true 6 6, c) := by
  have hread : ∀ off n, ∃ off' n', FlashCmd.flashRead off n = .flashRead off' n' :=
    fun off n => ⟨off, n, rfl⟩
  rw [run_reads (only_flashKvGet hread _ true 6 6), exec_flashKvGet (by decide)]

variable {c}

theorem boot_of_some {mac : List UInt8} (h : storedMac c.sector = some mac) :
    (boot entropy c).1.mac = mac ∧ (boot entropy c).2 = c := by
  obtain ⟨hkey, hvalid⟩ := Option.filter_eq_some_iff.mp h
  simp only [Bool.and_eq_true, decide_eq_true_eq] at hvalid
  have hload : (loadMac entropy).run chip c = (mac, c) := by
    rw [loadMac, run_bind, run_getMac, hkey]
    simp [getAnswer, hvalid.1, hvalid.2]
  exact Prod.mk.injEq .. ▸ (boot_loadMac entropy c).trans hload

theorem boot_of_none (h : storedMac c.sector = none) :
    (boot entropy c).1.mac = generateMac entropy ∧ (boot entropy c).2 =
      ((WriteCall.set Key.mac.number (.bytes (generateMac entropy))).prog.run chip c).2 := by
  have hload : (loadMac entropy).run chip c = (generateMac entropy,
      ((WriteCall.set Key.mac.number (.bytes (generateMac entropy))).prog.run chip c).2) := by
    rw [loadMac, run_bind, run_getMac]
    dsimp only
    rw [if_neg, run_bind]
    · rfl
    · rintro ⟨hret, hvalid⟩
      cases hkey : kvMap c.sector Key.mac.number with
      | none => simp [getAnswer, hkey] at hret
      | some mac =>
        have hlen : mac.length = 6 := by
          by_contra hne
          simp [getAnswer, hkey, hne] at hret
        rw [storedMac, hkey] at h
        simp only [getAnswer, hkey, hlen] at hvalid
        simp_all
  exact Prod.mk.injEq .. ▸ (boot_loadMac entropy c).trans hload

/-- A boot that can store its address has stored it. -/
theorem storedMac_boot (h : KeepsMac c) :
    storedMac (boot entropy c).2.sector = some (boot entropy c).1.mac := by
  cases hmac : storedMac c.sector with
  | some mac =>
    obtain ⟨hsame, hchip⟩ := boot_of_some entropy hmac
    rw [hsame, hchip, hmac]
  | none =>
    obtain ⟨hopen, hfits⟩ := h.resolve_left (not_not.mpr hmac)
    obtain ⟨hnew, hchip⟩ := boot_of_none entropy hmac
    set w := WriteCall.set Key.mac.number (.bytes (generateMac entropy))
    have hlive : liveValue w.value = some (generateMac entropy) := rfl
    have hok : (exec w.prog c.sector).1 = .ok () := by
      rw [exec_write (macCall_valid entropy),
        if_pos ((liveSize_newMac c.sector entropy).trans_le hfits)]
      split_ifs <;> rfl
    rw [hnew, hchip, (run_unprotected _ hopen).2, storedMac, kvMap_of_ok hok, newMap,
      show Key.mac.number = w.key from rfl, Function.update_self, hlive]
    simp [length_generateMac, configMacIsValid_generateMac]

/-- A boot that cannot store its address leaves the store as it found it. -/
theorem storedMac_boot_of_not (h : ¬KeepsMac c) :
    storedMac (boot entropy c).2.sector = none ∧ (boot entropy c).1.mac = generateMac entropy := by
  obtain ⟨hmac, hclosed⟩ := not_or.mp h
  have hnone : storedMac c.sector = none := not_not.mp hmac
  obtain ⟨hnew, hchip⟩ := boot_of_none entropy hnone
  set w := WriteCall.set Key.mac.number (.bytes (generateMac entropy))
  have hsector : (w.prog.run chip c).2.sector = c.sector := by
    by_cases hp : c.isProtected = true
    · have hguarded : Only (· ≠ .flashUnprotect) w.prog :=
        only_write (fun _ _ => nofun) (fun _ _ => nofun) nofun w
      rw [run_protected hguarded hp]
    · have hopen : c.isProtected = false := by simpa using hp
      have hfull : ¬liveSize (newMap c.sector w) ≤ 4096 := fun hle =>
        hclosed ⟨hopen, (liveSize_newMac c.sector entropy).symm.trans_le hle⟩
      rw [(run_unprotected _ hopen).2, exec_write (macCall_valid entropy), if_neg hfull]
      split_ifs <;> rfl
  exact ⟨by rw [hchip, hsector, hnone], hnew⟩

end Boot

/-! ## Two boots -/

/-- The address is the same after every two boots, whatever is random and whatever the status
register is at the second one, exactly if the first boot finds an address or can store one. -/
theorem mac_stable_iff (c : Chip) (sr1 : UInt8) :
    (∀ entropy entropy', (boot entropy' ⟨(boot entropy c).2.sector, sr1⟩).1.mac =
      (boot entropy c).1.mac) ↔ KeepsMac c := by
  constructor
  · intro hsame
    by_contra hkeeps
    obtain ⟨hnone, hmac⟩ := storedMac_boot_of_not [0, 0, 0] hkeeps
    have hsecond := (boot_of_none (c := ⟨_, sr1⟩) [1, 0, 0] hnone).1
    have hboth := hsame [0, 0, 0] [1, 0, 0]
    rw [hsecond, hmac] at hboth
    exact absurd hboth (by decide)
  · intro hkeeps entropy entropy'
    exact (boot_of_some (c := ⟨_, sr1⟩) entropy' (storedMac_boot entropy hkeeps)).1

/-- `config_save` works on any chip as on the bare sector: it clears the protection first. -/
theorem run_configSave (g : Config) (c : Chip) :
    ((configSave g).run chip c).1 = (exec (configSave g) c.sector).1 ∧
      ((configSave g).run chip c).2.sector = (exec (configSave g) c.sector).2 := by
  obtain ⟨hopen, hsector⟩ := isProtected_unprotect c
  rw [configSave_eq, exec_flashUnprotect_bind, ← hsector]
  exact run_unprotected _ hopen

/-- A blank store behind the protection the boot loader leaves. -/
def protectedBlank : Chip := ⟨Sector.erased, 0x7C⟩

theorem mac_changes : (boot [1, 0, 0] (boot [0, 0, 0] protectedBlank).2).1.mac ≠
    (boot [0, 0, 0] protectedBlank).1.mac := by
  have hnone : storedMac protectedBlank.sector = none := by
    rw [storedMac, show kvMap protectedBlank.sector _ = none from kvMap_erased _]
    rfl
  have hnot : ¬KeepsMac protectedBlank := by
    rintro (h | ⟨h, -⟩)
    · exact h hnone
    · exact absurd h (by decide)
  obtain ⟨hstill, hmac⟩ := storedMac_boot_of_not [0, 0, 0] hnot
  rw [(boot_of_none [1, 0, 0] hstill).1, hmac]
  decide

end BekenCam.Settings
