import BekenCam.FlashKvRefinement

/-!
# A chip with block protection

The sector together with the chip's status register. While a block-protect bit is set the
controller puts no program and no erase on the bus. `flash_unprotect` is the only command that
changes the register. A program that does not issue it runs on a protected chip without leaving
a trace, and any program runs on an unprotected chip as it does on the bare sector.
-/
namespace BekenCam.FlashKv

open Prog

structure Chip where
  sector : Sector
  sr1 : UInt8

/-- BP2, BP1 and BP0. -/
@[simp] abbrev blockProtectMask : UInt8 := 0x1C

/-- The bits that `flash_unprotect` looks at. -/
@[simp] abbrev protectionMask : UInt8 := 0xFC

def Chip.isProtected (c : Chip) : Bool := c.sr1 &&& blockProtectMask ≠ 0

/-- Programming and erasing are ignored on a protected chip. -/
def Chip.change (c : Chip) (s : Sector) : Chip := if c.isProtected then c else { c with sector := s }

def chip : Handler FlashCmd FlashCmd.Answer Chip
  | .flashRead off n, c => (slice c.sector.bytes off n, c)
  | .flashWrite off src, c => ((), c.change (nor (.flashWrite off src) c.sector).2)
  | .flashEraseSector, c => ((), c.change Sector.erased)
  | .flashUnprotect, c => ((), if c.sr1 &&& protectionMask ≠ 0 then { c with sr1 := 0 } else c)

section Runs

variable {α : Type}

@[simp] theorem chip_flashRead (off n : ℕ) (c : Chip) :
    chip (.flashRead off n) c = (slice c.sector.bytes off n, c) := rfl

theorem Chip.change_of_unprotected {c : Chip} (h : c.isProtected = false) (s : Sector) :
    c.change s = { c with sector := s } := by simp [Chip.change, h]

theorem isProtected_unprotect (c : Chip) :
    (chip .flashUnprotect c).2.isProtected = false ∧
      (chip .flashUnprotect c).2.sector = c.sector := by
  by_cases h : c.sr1 &&& protectionMask ≠ 0
  · simp [chip, h, Chip.isProtected]
  · have hzero : c.sr1 &&& protectionMask = 0 := not_not.mp h
    have hsub : c.sr1 &&& blockProtectMask = c.sr1 &&& protectionMask &&& blockProtectMask := by
      rw [UInt8.and_assoc]
      rfl
    simp only [chip, hzero, ne_eq, not_true_eq_false, if_false, Chip.isProtected, hsub]
    simp

/-- One command on an unprotected chip. -/
theorem chip_of_unprotected (cmd : FlashCmd) {c : Chip} (h : c.isProtected = false) :
    (chip cmd c).1 = (nor cmd c.sector).1 ∧ (chip cmd c).2.sector = (nor cmd c.sector).2 ∧
      (chip cmd c).2.isProtected = false := by
  cases cmd with
  | flashRead off n => exact ⟨rfl, rfl, h⟩
  | flashWrite off src =>
    rw [chip, Chip.change_of_unprotected h]
    exact ⟨rfl, rfl, h⟩
  | flashEraseSector =>
    rw [chip, Chip.change_of_unprotected h]
    exact ⟨rfl, rfl, h⟩
  | flashUnprotect =>
    obtain ⟨hp, hs⟩ := isProtected_unprotect c
    exact ⟨rfl, hs, hp⟩

/-- On an unprotected chip a program does what it does on the sector alone. -/
theorem run_unprotected (m : FlashM α) {c : Chip} (h : c.isProtected = false) :
    (run chip m c).1 = (exec m c.sector).1 ∧ (run chip m c).2.sector = (exec m c.sector).2 := by
  induction m generalizing c with
  | ret a => exact ⟨rfl, rfl⟩
  | call cmd k ih =>
    obtain ⟨hanswer, hsector, hstill⟩ := chip_of_unprotected cmd h
    rw [run_call, exec, run_call, ← hanswer, ← hsector]
    exact ih _ hstill

/-- On a protected chip a program that does not unprotect it changes nothing. -/
theorem run_protected {m : FlashM α} (hm : Only (· ≠ .flashUnprotect) m) {c : Chip}
    (h : c.isProtected = true) : (run chip m c).2 = c := by
  induction m generalizing c with
  | ret a => rfl
  | call cmd k ih =>
    have hsame : (chip cmd c).2 = c := by
      cases cmd with
      | flashRead off n => rfl
      | flashWrite off src => simp [chip, Chip.change, h]
      | flashEraseSector => simp [chip, Chip.change, h]
      | flashUnprotect => exact absurd rfl hm.1
    rw [run_call, hsame]
    exact ih _ (hm.2 _) h

/-- Protection or not, reading works. -/
theorem run_reads {m : FlashM α} (hm : Only (fun cmd => ∃ off n, cmd = .flashRead off n) m)
    (c : Chip) : run chip m c = ((exec m c.sector).1, c) := by
  induction m generalizing c with
  | ret a => rfl
  | call cmd k ih =>
    obtain ⟨off, n, rfl⟩ := hm.1
    rw [run_call, chip_flashRead, exec, run_call]
    exact ih _ (hm.2 _) c

end Runs

/-! ## No store call but `flash_kv_erase` unprotects -/

section Writes

variable {P : FlashCmd → Prop} (hread : ∀ off n, P (.flashRead off n))
  (hwrite : ∀ off src, P (.flashWrite off src)) (herase : P .flashEraseSector)

include hread hwrite

theorem only_writeVerified (off : ℕ) (src : List UInt8) : Only P (writeVerified off src) :=
  only_bind ⟨hwrite off src, fun _ => trivial⟩ fun _ => only_readBack hread off src 0

include herase

theorem only_append (key : UInt16) (value : List UInt8) : Only P (append key value) := by
  apply only_bind (only_scan hread)
  rintro ⟨state, stop⟩
  apply only_ite (only_writeVerified hread hwrite _ _)
  apply only_bind (only_collectImage hread state)
  intro img
  apply only_ite (only_pure _)
  dsimp only
  apply only_ite (only_pure _)
  exact only_bind ⟨herase, fun _ => trivial⟩ fun _ => only_writeVerified hread hwrite _ _

theorem only_write (w : WriteCall) : Only P w.prog := by
  rw [w.prog_eq]
  apply only_bind (WriteCall.only_check hread w)
  rintro (_ | r)
  · exact only_append hread hwrite herase w.key w.value
  · exact only_pure r

end Writes

end BekenCam.FlashKv
