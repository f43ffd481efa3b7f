import BekenCam.StepRuns
import BekenCam.WifiTransmit

/-!
# What the counters show

Each step of a task comes to one increment at most. As long as no two tasks are between the read and
the store of one counter, a counter lacks only the increments under way.
-/
namespace BekenCam.WifiTx

open WifiNet

namespace State

variable {s : State}

theorem load_cases {t : Task} {s' : State} (h : s.load t = some s') : ∃ c,
    s.counting t = some ⟨c, none⟩ ∧
      s' = { s with counting := Function.update s.counting t (some ⟨c, some (s.stat c)⟩) } := by
  unfold State.load at h
  split at h
  · next c hc => exact ⟨c, hc, (Option.some.inj h).symm⟩
  · cases h

theorem store_cases {t : Task} {s' : State} (h : s.store t = some s') : ∃ c n,
    s.counting t = some ⟨c, some n⟩ ∧ s' = { s with
      stat := Function.update s.stat c (n + 1)
      counting := Function.update s.counting t none } := by
  unfold State.store at h
  split at h
  · next c n hc => exact ⟨c, n, hc, (Option.some.inj h).symm⟩
  · cases h

/-- The counter whose value a task holds. -/
def loaded (s : State) (t : Task) : Option Counter :=
  match s.counting t with
  | some ⟨c, some _⟩ => some c
  | _ => none

/-- No two tasks hold the value of one counter. -/
def Undivided (s : State) : Prop :=
  ∀ t t', t ≠ t' → s.loaded t = none ∨ s.loaded t ≠ s.loaded t'

instance (s : State) : Decidable s.Undivided := by
  unfold Undivided
  infer_instance

def pendingBy (s : State) (t : Task) (c : Counter) : ℕ :=
  if (s.counting t).map Increment.counter = some c then 1 else 0

/-- The increments of a counter that are under way. -/
def pending (s : State) (c : Counter) : ℕ :=
  s.pendingBy .tcpip c + s.pendingBy .supplicant c + s.pendingBy .core c

/-- The increments under way after one task took up or finished one. -/
theorem pending_update (s s' : State) (t : Task) {inc : Option Increment}
    (h : s'.counting = Function.update s.counting t inc) (c : Counter) :
    s'.pending c + s.pendingBy t c =
      s.pending c + if inc.map Increment.counter = some c then 1 else 0 := by
  simp only [pending, pendingBy, h]
  cases t <;>
    simp only [Function.update_apply, reduceCtorEq, if_true, if_false] <;> omega

/-- What was read is still what the counter shows, and every counter lacks the increments under
way. -/
structure Exact (s : State) : Prop where
  read : ∀ t c n, s.counting t = some ⟨c, some n⟩ → n = s.stat c
  counted : ∀ c, s.stat c + .ofNat (s.pending c) = .ofNat (s.begun c)

/-- The step leaves the counters and the increments alone. -/
structure SameCounts (s s' : State) : Prop where
  stat : s'.stat = s.stat
  counting : s'.counting = s.counting
  begun : s'.begun = s.begun

theorem SameCounts.refl (s : State) : SameCounts s s := ⟨rfl, rfl, rfl⟩

theorem SameCounts.trans {s s₁ s' : State} (h : SameCounts s s₁) (h' : SameCounts s₁ s') :
    SameCounts s s' :=
  ⟨h'.stat.trans h.stat, h'.counting.trans h.counting, h'.begun.trans h.begun⟩

theorem SameCounts.count {s s' : State} (h : SameCounts s s') (t : Task) (c : Counter) :
    SameCounts (s.count t c) (s'.count t c) where
  stat := h.stat
  counting := congrArg (Function.update · t _) h.counting
  begun := by
    show Function.update s'.begun c (s'.begun c + 1) = _
    rw [h.begun]
    rfl

theorem Exact.same {s' : State} (h : s.Exact) (hsame : SameCounts s s') : s'.Exact where
  read t c n hc := by
    rw [hsame.counting] at hc
    rw [hsame.stat]
    exact h.read t c n hc
  counted c := by
    have hpending : s'.pending c = s.pending c := by simp only [pending, pendingBy, hsame.counting]
    rw [hsame.stat, hsame.begun, hpending]
    exact h.counted c

theorem Exact.count (h : s.Exact) {t : Task} (hidle : s.counting t = none) (c : Counter) :
    (s.count t c).Exact where
  read t' c' n hc := by
    replace hc : Function.update s.counting t (some ⟨c, none⟩) t' = some ⟨c', some n⟩ := hc
    rw [Function.update_apply] at hc
    split_ifs at hc
    · cases hc
    · exact h.read t' c' n hc
  counted c' := by
    have hpending := pending_update s (s.count t c) t rfl c'
    have hcounted := h.counted c'
    have hbegun : (s.count t c).begun c' = s.begun c' + if c = c' then 1 else 0 := by
      simp only [State.count, Function.update_apply, eq_comm]
      split_ifs with heq
      · rw [heq]
      · rfl
    simp only [pendingBy, hidle, Option.map_none, reduceCtorEq, if_false, Option.map_some,
      Option.some.injEq, Nat.add_zero] at hpending
    rw [hpending, hbegun, UInt32.ofNat_add, UInt32.ofNat_add, ← UInt32.add_assoc]
    exact congrArg (· + _) hcounted

theorem Exact.load {t : Task} {s' : State} (h : s.Exact) (hload : s.load t = some s') :
    s'.Exact := by
  obtain ⟨c, hc, rfl⟩ := load_cases hload
  refine ⟨fun t' c' n hc' => ?_, fun c' => ?_⟩
  · replace hc' : Function.update s.counting t (some ⟨c, some (s.stat c)⟩) t' =
        some ⟨c', some n⟩ := hc'
    rw [Function.update_apply] at hc'
    split_ifs at hc'
    · cases hc'
      rfl
    · exact h.read t' c' n hc'
  · have hpending := pending_update s { s with
      counting := Function.update s.counting t (some ⟨c, some (s.stat c)⟩) } t rfl c'
    simp only [pendingBy, hc, Option.map_some] at hpending
    rw [Nat.add_right_cancel hpending]
    exact h.counted c'

/-- Nobody else holds the value of the counter that is stored. -/
theorem Exact.store {t : Task} {s' : State} (h : s.Exact) (hundivided : s.Undivided)
    (hstore : s.store t = some s') : s'.Exact := by
  obtain ⟨c, n, hc, rfl⟩ := store_cases hstore
  obtain rfl := h.read t c n hc
  refine ⟨fun t' c' n hc' => ?_, fun c' => ?_⟩
  · replace hc' : Function.update s.counting t none t' = some ⟨c', some n⟩ := hc'
    rw [Function.update_apply] at hc'
    split_ifs at hc' with hself
    have hloaded : s.loaded t = some c := by simp only [loaded, hc]
    have hloaded' : s.loaded t' = some c' := by simp only [loaded, hc']
    have hne : c' ≠ c := by
      rintro rfl
      rcases hundivided t t' (Ne.symm hself) with hnone | hother
      · rw [hloaded] at hnone
        cases hnone
      · exact hother (hloaded.trans hloaded'.symm)
    show n = Function.update s.stat c (s.stat c + 1) c'
    rw [Function.update_of_ne hne]
    exact h.read t' c' n hc'
  · have hpending := pending_update s { s with
      stat := Function.update s.stat c (s.stat c + 1)
      counting := Function.update s.counting t none } t rfl c'
    have hcounted := h.counted c'
    simp only [pendingBy, hc, Option.map_none, Option.map_some, reduceCtorEq, if_false,
      Option.some.injEq, Nat.add_zero] at hpending
    rw [← hpending] at hcounted
    show Function.update s.stat c (s.stat c + 1) c' + _ = UInt32.ofNat (s.begun c')
    rw [← hcounted, Function.update_apply]
    by_cases heq : c = c'
    · rw [if_pos heq, if_pos heq.symm, UInt32.ofNat_add, heq]
      show _ = s.stat c' + (_ + 1)
      rw [UInt32.add_assoc, UInt32.add_comm 1]
    · rw [if_neg heq, if_neg (Ne.symm heq), Nat.add_zero]

theorem lowLevelOutput_counts (s : State) (t : Task) (i : IfaceId) (p : Pbuf) :
    SameCounts s (s.lowLevelOutput t i p) ∨
      ∃ c, SameCounts (s.count t c) (s.lowLevelOutput t i p) := by
  unfold State.lowLevelOutput
  dsimp only
  split_ifs
  · exact .inl (.refl s)
  · exact .inr ⟨.txPosted i, rfl, rfl, rfl⟩
  · exact .inr ⟨.txDropped i, rfl, rfl, rfl⟩

theorem wifiNetSendRaw_counts (s : State) (v : UInt8) (p : Pbuf) (alloc : Bool) :
    SameCounts s (s.wifiNetSendRaw v p alloc) ∨
      ∃ c, SameCounts (s.count .supplicant c) (s.wifiNetSendRaw v p alloc) := by
  unfold State.wifiNetSendRaw
  split
  · exact .inl (.refl s)
  · next i _ =>
    split_ifs
    · exact .inl (.refl s)
    · rcases lowLevelOutput_counts { s with nextRef := s.nextRef + 1 } .supplicant i p with
        hsame | ⟨c, hcount⟩
      · exact .inl ⟨hsame.stat, hsame.counting, hsame.begun⟩
      · exact .inr ⟨c, hcount.stat, hcount.counting, hcount.begun⟩

theorem reapSlot_counts (reset : Bool) (s : State) (k : Fin txInflight) :
    SameCounts s (s.reapSlot reset k) := by
  unfold State.reapSlot
  split
  · exact .refl s
  · split_ifs
    · exact .refl s
    · exact ⟨rfl, rfl, rfl⟩

theorem txReap_counts (s : State) : SameCounts s s.txReap := by
  have hfold : ∀ (ks : List (Fin txInflight)) (s' : State), SameCounts s s' →
      SameCounts s (ks.foldl (State.reapSlot s.txReset) s') := by
    intro ks
    induction ks with
    | nil => exact fun _ h => h
    | cons k ks ih => exact fun s' h => ih _ (h.trans (reapSlot_counts s.txReset s' k))
  exact hfold _ _ ⟨rfl, rfl, rfl⟩

theorem completes_counts (s : State) (late : List Td) :
    SameCounts s (late.foldl State.complete s) := by
  induction late generalizing s with
  | nil => exact .refl s
  | cons td late ih =>
    have hfirst : SameCounts s (s.complete td) := ⟨rfl, rfl, rfl⟩
    exact hfirst.trans (ih (s.complete td))

theorem copyAndPush_counts (s : State) (e : Env) (ref : ℕ) (p : Pbuf) (i : IfaceId) (staid : UInt8)
    (k : Fin txInflight) : ∃ c, SameCounts (s.count .core c) (s.copyAndPush e ref p i staid k) := by
  simp only [copyAndPush]
  split_ifs
  · exact ⟨.txDropped i, rfl, rfl, rfl⟩
  · exact ⟨.txDropped i, rfl, rfl, rfl⟩
  · exact ⟨.txPushed i, rfl, rfl, rfl⟩

/-- The core task comes to one increment with each frame. -/
theorem wifiNetTxFromCore_counts (s : State) (e : Env) (ref : ℕ) (p : Pbuf) (v : UInt8) :
    ∃ c, SameCounts (s.count .core c) (s.wifiNetTxFromCore e ref p v) := by
  unfold State.wifiNetTxFromCore
  split
  · exact ⟨.txUnknownVif, rfl, rfl, rfl⟩
  · next i _ =>
    split_ifs
    · exact ⟨.txDropped i, rfl, rfl, rfl⟩
    dsimp only
    split
    · exact ⟨.txDropped i, rfl, rfl, rfl⟩
    have hreap := txReap_counts s
    cases s.txReap.freeSlot with
    | none => exact ⟨.txDropped i, SameCounts.trans (hreap.count .core _) ⟨rfl, rfl, rfl⟩⟩
    | some k =>
      have hlate := hreap.trans (completes_counts s.txReap e.late)
      dsimp only
      split_ifs
      · exact ⟨.txDropped i, SameCounts.trans (hlate.count .core _) ⟨rfl, rfl, rfl⟩⟩
      · obtain ⟨c, hcount⟩ := copyAndPush_counts (e.late.foldl State.complete s.txReap) e ref p i
          (txStaid e.peers i (s.table i).vif ⟨p.copyPartial 6 0, _⟩) k
        exact ⟨c, (hlate.count .core c).trans hcount⟩

/-! ## Runs -/

theorem Exact.step {l : Label} {s' : State} (h : s.Exact) (hundivided : s.Undivided)
    (hstep : WifiTx.step s l = some s') : s'.Exact := by
  cases l with
  | output i p =>
    simp only [WifiTx.step, Option.isNone_iff_eq_none] at hstep
    split_ifs at hstep with hidle
    cases hstep
    rcases lowLevelOutput_counts s .tcpip i p with hsame | ⟨c, hcount⟩
    · exact h.same hsame
    · exact (h.count hidle c).same hcount
  | sendRaw v p alloc =>
    simp only [WifiTx.step, Option.isNone_iff_eq_none] at hstep
    split_ifs at hstep with hidle
    cases hstep
    rcases wifiNetSendRaw_counts s v p alloc with hsame | ⟨c, hcount⟩
    · exact h.same hsame
    · exact (h.count hidle c).same hcount
  | postOther =>
    cases hstep
    unfold State.postOther
    split_ifs
    · exact h.same ⟨rfl, rfl, rfl⟩
    · exact h
  | core e =>
    simp only [WifiTx.step, Option.isNone_iff_eq_none] at hstep
    split_ifs at hstep with hidle
    split at hstep
    · cases hstep
    · cases hstep
      exact h.same ⟨rfl, rfl, rfl⟩
    · next ref p v rest _ =>
      cases hstep
      obtain ⟨c, hcount⟩ := wifiNetTxFromCore_counts { s with queue := rest } e ref p v
      exact (h.count hidle c).same ⟨hcount.stat, hcount.counting, hcount.begun⟩
  | load t => exact h.load hstep
  | store t => exact h.store hundivided hstep
  | touch td contents =>
    obtain ⟨host, -, rfl⟩ := Option.map_eq_some_iff.mp hstep
    exact h.same ⟨rfl, rfl, rfl⟩
  | complete td | reset | setTable t =>
    cases hstep
    exact h.same ⟨rfl, rfl, rfl⟩

theorem exact_run {ls : List Label} {s' : State} (h : s.Exact)
    (hundivided : Within WifiTx.step (fun s _ => s.Undivided) s ls)
    (hrun : runSteps WifiTx.step s ls = some s') : s'.Exact := by
  induction ls generalizing s with
  | nil =>
    cases hrun
    exact h
  | cons l ls ih =>
    obtain ⟨s₁, hstep, hrest⟩ := runSteps_cons hrun
    exact ih (h.step hundivided.1 hstep) (hundivided.2 s₁ hstep) hrest

theorem init_exact (t : Table) : (init t).Exact where
  read := nofun
  counted _ := rfl

end State
end BekenCam.WifiTx
