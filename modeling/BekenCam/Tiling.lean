import Mathlib.Data.Nat.Basic

/-!
# Records laid end to end

A record is a header of fixed size and a payload, whose length the header states. The payload of a
container is itself laid out in records. A range is well formed when records tile it, and those of
its containers tile theirs.
-/
namespace BekenCam

/-- What the header at an address says, whatever is there. -/
structure Layout where
  header : ℕ
  len : ℕ → ℕ
  container : ℕ → Bool

namespace Layout

variable (l : Layout)

/-- The payload of the record at `a`. -/
def payload (a : ℕ) : ℕ := a + l.header

/-- Behind the record at `a`. -/
def next (a : ℕ) : ℕ := l.payload a + l.len a

inductive Tiled : ℕ → ℕ → Prop
  | nil (a : ℕ) : Tiled a a
  | cons {a stop : ℕ} (hfits : l.next a ≤ stop)
      (hnested : l.container a = true → Tiled (l.payload a) (l.next a))
      (hrest : Tiled (l.next a) stop) : Tiled a stop

/-- A reader that stops at the first record that does not fit gets to `a`, in a range that ends at
`e`. -/
inductive Reached (start stop : ℕ) : ℕ → ℕ → Prop
  | first : Reached start stop start stop
  | inner {a e : ℕ} (h : Reached start stop a e) (hlt : a < e) (hfits : l.next a ≤ e)
      (hcontainer : l.container a = true) : Reached start stop (l.payload a) (l.next a)
  | rest {a e : ℕ} (h : Reached start stop a e) (hlt : a < e) (hfits : l.next a ≤ e)
      (hnested : l.container a = true → l.Tiled (l.payload a) (l.next a)) :
      Reached start stop (l.next a) e

/-- No end of a record that is too long comes back into the range modulo `w`. -/
def Unwrapped (w start stop : ℕ) : Prop :=
  ∀ a e, l.Reached start stop a e → a < e → l.next a % w ≤ e → l.next a ≤ e

variable {l}

theorem payload_le_next (a : ℕ) : l.payload a ≤ l.next a := Nat.le_add_right _ _

theorem tiled_iff {a stop : ℕ} (hlt : a < stop) : l.Tiled a stop ↔ l.next a ≤ stop ∧
    (l.container a = true → l.Tiled (l.payload a) (l.next a)) ∧ l.Tiled (l.next a) stop := by
  constructor
  · intro h
    cases h with
    | nil => exact absurd hlt (Nat.lt_irrefl a)
    | cons hfits hnested hrest => exact ⟨hfits, hnested, hrest⟩
  · rintro ⟨hfits, hnested, hrest⟩
    exact Tiled.cons hfits hnested hrest

theorem Reached.trans {start stop a e b f : ℕ} (h : l.Reached start stop a e)
    (h' : l.Reached a e b f) : l.Reached start stop b f := by
  induction h' with
  | first => exact h
  | inner _ hlt hfits hcontainer ih => exact ih.inner hlt hfits hcontainer
  | rest _ hlt hfits hnested ih => exact ih.rest hlt hfits hnested

theorem Tiled.le {a stop : ℕ} (h : l.Tiled a stop) : a ≤ stop := by
  cases h with
  | nil => exact Nat.le_refl a
  | cons hfits _ _ =>
    exact Nat.le_trans (Nat.le_add_right a l.header) (Nat.le_trans (payload_le_next a) hfits)

/-- What is reached lies inside. -/
theorem Reached.bounds {start stop a e : ℕ} (h : l.Reached start stop a e)
    (hle : start ≤ stop) : start ≤ a ∧ a ≤ e ∧ e ≤ stop := by
  induction h with
  | first => exact ⟨Nat.le_refl start, hle, Nat.le_refl stop⟩
  | @inner a e _ hlt hfits _ ih =>
    have hpayload : a ≤ l.payload a := Nat.le_add_right a l.header
    exact ⟨Nat.le_trans ih.1 hpayload, payload_le_next a, Nat.le_trans hfits ih.2.2⟩
  | @rest a e _ hlt hfits _ ih =>
    have hnext : a ≤ l.next a := Nat.le_trans (Nat.le_add_right a l.header) (payload_le_next a)
    exact ⟨Nat.le_trans ih.1 hnext, hfits, ih.2.2⟩

theorem Reached.tiled {start stop a e : ℕ} (h : l.Reached start stop a e)
    (htiled : l.Tiled start stop) : l.Tiled a e := by
  induction h with
  | first => exact htiled
  | inner _ hlt _ hcontainer ih => exact ((tiled_iff hlt).mp ih).2.1 hcontainer
  | rest _ hlt _ _ ih => exact ((tiled_iff hlt).mp ih).2.2

section Unwrapped

variable {w a stop : ℕ}

/-- Where records tile the range, none is too long. -/
theorem Tiled.unwrapped (h : l.Tiled a stop) : l.Unwrapped w a stop := by
  intro b e hreached hlt _
  exact ((tiled_iff hlt).mp (hreached.tiled h)).1

theorem Unwrapped.fits (h : l.Unwrapped w a stop) (hlt : a < stop) (hmod : l.next a % w ≤ stop) :
    l.next a ≤ stop :=
  h a stop Reached.first hlt hmod

theorem Unwrapped.inner (h : l.Unwrapped w a stop) (hlt : a < stop) (hfits : l.next a ≤ stop)
    (hcontainer : l.container a = true) : l.Unwrapped w (l.payload a) (l.next a) :=
  fun b f hb => h b f ((Reached.first.inner hlt hfits hcontainer).trans hb)

theorem Unwrapped.rest (h : l.Unwrapped w a stop) (hlt : a < stop) (hfits : l.next a ≤ stop)
    (hnested : l.container a = true → l.Tiled (l.payload a) (l.next a)) :
    l.Unwrapped w (l.next a) stop :=
  fun b f hb => h b f ((Reached.first.rest hlt hfits hnested).trans hb)

end Unwrapped

end Layout

end BekenCam
