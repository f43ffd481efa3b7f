import BekenCam.FlashKvModel

/-!
# Programs that only read

Everything a store call does before its first write or erase, and everything after its
last one, leaves the sector alone whatever it reads. This holds of the programs
themselves, so also when a power loss or a second caller comes in between.
-/
namespace BekenCam.FlashKv

open Prog

/-- Commands that leave the bytes of the sector alone. -/
def FlashCmd.isQuiet : FlashCmd → Bool
  | flashRead _ _ => true
  | flashUnprotect => true
  | _ => false

theorem nor_snd_of_isQuiet (c : FlashCmd) (h : c.isQuiet = true) (s : Sector) :
    (nor c s).2 = s := by
  cases c <;> first | rfl | simp [FlashCmd.isQuiet] at h

/-- A program that cannot change the sector. -/
def Quiet {α : Type} (m : FlashM α) : Prop := m.Only (fun c => c.isQuiet = true)

section Rules

variable {α : Type}

/-- If a run changes the sector, one of its commands was not quiet. -/
theorem calls_not_quiet_of_ne (m : FlashM α) (s : Sector) (h : (exec m s).2 ≠ s) :
    ∃ c ∈ m.calls nor s, c.isQuiet = false := by
  induction m generalizing s with
  | ret a => exact absurd rfl h
  | call c k ih =>
    by_cases hc : c.isQuiet = true
    · simp only [exec, run_call, nor_snd_of_isQuiet c hc] at h
      obtain ⟨d, hd, hq⟩ := ih _ s h
      refine ⟨d, ?_, hq⟩
      rw [calls_call, nor_snd_of_isQuiet c hc]
      exact List.mem_cons_of_mem _ hd
    · exact ⟨c, by simp, by simpa using hc⟩

end Rules

/-! ## Reading programs issue reads -/

section Reads

variable {P : FlashCmd → Prop} (hread : ∀ off n, P (.flashRead off n))

include hread

theorem only_flashRead_bind {α : Type} {off n : ℕ} {f : List UInt8 → FlashM α}
    (hf : ∀ b, Only P (f b)) : Only P (flashRead off n >>= f) :=
  only_bind ⟨hread off n, fun _ => trivial⟩ hf

theorem only_headerState : Only P headerState := by
  apply only_flashRead_bind hread
  intro header
  split_ifs <;> exact only_pure _

theorem only_walkFrom {β : Type} (visit : β → Record → β) (ctx : β) (off : ℕ) :
    Only P (walkFrom visit ctx off) := by
  induction ctx, off using walkFrom.induct visit with
  | case1 ctx => rw [walkFrom, if_pos rfl]; exact only_pure _
  | case2 ctx off h ih =>
    rw [walkFrom, if_neg h]
    apply only_flashRead_bind hread
    intro head
    apply only_ite (only_pure _)
    split_ifs with hlen
    · exact only_pure _
    · exact only_flashRead_bind hread fun value => only_flashRead_bind hread fun _ =>
        only_ite (only_pure _) (ih head hlen value)

theorem only_walk {β : Type} (visit : β → Record → β) (ctx : β) : Only P (walk visit ctx) :=
  only_walkFrom hread visit ctx headerSize

theorem only_tailIsBlank (off : ℕ) : Only P (tailIsBlank off) := by
  induction off using tailIsBlank.induct with
  | case1 off h ih =>
    rw [tailIsBlank, if_pos h]
    exact only_flashRead_bind hread fun _ => only_ite (only_pure _) ih
  | case2 off h => rw [tailIsBlank, if_neg h]; exact only_pure _

theorem only_scan : Only P scan := by
  apply only_bind (only_headerState hread)
  intro header
  apply only_ite (only_pure _)
  apply only_bind (only_walk hread _ _)
  rintro ⟨clean, -, stop⟩
  exact only_ite (only_pure _) (only_bind (only_tailIsBlank hread stop) fun _ =>
    only_ite (only_pure _) (only_pure _))

theorem only_flashKvGet (key : UInt16) (buf : Bool) (size exactSize : ℕ) :
    Only P (flashKvGet key buf size exactSize) := by
  apply only_ite (only_pure _)
  apply only_bind (only_headerState hread)
  intro header
  apply only_ite (only_pure _)
  apply only_bind (only_walk hread _ _)
  rintro ⟨-, l, -⟩
  dsimp only
  split
  · exact only_pure _
  · exact only_ite (only_pure _) (only_ite (only_ite (only_pure _)
      (only_flashRead_bind hread fun _ => only_pure _)) (only_pure _))

theorem only_flashKvGetU8 (key : UInt16) (dst : UInt8) : Only P (flashKvGetU8 key dst) := by
  apply only_bind (only_flashKvGet hread key true 1 1)
  rintro ⟨ret, value⟩
  dsimp only
  split <;> exact only_pure _

theorem only_flashKvGetBool (key : UInt16) (dst : Bool) : Only P (flashKvGetBool key dst) := by
  apply only_bind (only_flashKvGetU8 hread key 0)
  rintro ⟨ret, value⟩
  dsimp only
  split <;> exact only_pure _

theorem only_flashKvGetString (key : UInt16) (dst : List UInt8) :
    Only P (flashKvGetString key dst) := by
  apply only_ite (only_pure _)
  apply only_bind (only_flashKvGet hread key true _ 0)
  rintro ⟨ret, value⟩
  dsimp only
  split
  · exact only_pure _
  · exact only_ite (only_pure _) (only_pure _)

theorem only_collectImage (state : FlashKvState) : Only P (collectImage state) := by
  apply only_ite
  · exact only_bind (only_walk hread _ _) fun _ => only_pure _
  · exact only_pure _

theorem only_readBack (off : ℕ) (src : List UInt8) (done : ℕ) :
    Only P (readBack off src done) := by
  induction done using readBack.induct src with
  | case1 done h ih =>
    rw [readBack, if_pos h]
    exact only_flashRead_bind hread fun _ => only_ite (only_pure _) ih
  | case2 done h => rw [readBack, if_neg h]; exact only_pure _

end Reads

theorem quiet_scan : Quiet scan := only_scan fun _ _ => rfl

theorem quiet_collectImage (state : FlashKvState) : Quiet (collectImage state) :=
  only_collectImage (fun _ _ => rfl) state

theorem quiet_readBack (off : ℕ) (src : List UInt8) (done : ℕ) : Quiet (readBack off src done) :=
  only_readBack (fun _ _ => rfl) off src done

end BekenCam.FlashKv
