import BekenCam.ApModel

/-!
# Clients and stations

The table and the stations of the LMAC tell the same story between frames: the stations are those
of the associated slots, one each, and a client is in the table only after an open-system
authentication. Within a frame they disagree for a moment, and each way through a frame brings them
together again.
-/
namespace BekenCam.Ap

open Prog

/-! ## The table -/

section Table

variable {t : ApClients} {mac : Octets 6} {i : Slot}

theorem apClientsFind_some (h : apClientsFind t mac = some i) :
    (t i).state ≠ .free ∧ (t i).mac = mac := by
  have hi := List.find?_some h
  simpa using hi

theorem apClientsFind_none (h : apClientsFind t mac = none) (j : Slot) (hj : (t j).state ≠ .free) :
    (t j).mac ≠ mac := by
  have hall := List.find?_eq_none.mp h j (List.mem_finRange j)
  simp only [Bool.decide_and, Bool.and_eq_true, decide_eq_true_eq, not_and] at hall
  exact hall hj

/-- A client is there already, or takes a free slot, or finds none. -/
theorem apClientsAdd_cases (t : ApClients) (mac : Octets 6) :
    ((apClientsAdd t mac).2 = t) ∨ (apClientsFind t mac = none ∧ ∃ i, (t i).state = .free ∧
      (apClientsAdd t mac).2 = Function.update t i ⟨mac, apNoSta, .authed⟩) := by
  unfold apClientsAdd
  cases hfind : apClientsFind t mac with
  | some i => exact .inl rfl
  | none =>
    cases hfree : (List.finRange apClientsMax).find? (fun i => (t i).state = .free) with
    | none => exact .inl rfl
    | some i =>
      have hi := List.find?_some hfree
      exact .inr ⟨rfl, i, by simpa using hi, rfl⟩

theorem apClientsAid_injective : Function.Injective apClientsAid := by decide

end Table

/-! ## Table and stations -/

/-- The stations are those of the associated slots. -/
structure Exact (s : Core) : Prop where
  distinct : ∀ i j, (s.table i).state ≠ .free → (s.table j).state ≠ .free →
    (s.table i).mac = (s.table j).mac → i = j
  valid : ∀ i, (s.table i).state = .assoc → (s.table i).staIdx ≠ apNoSta
  stations : ∀ staIdx st, s.stations staIdx = some st ↔ ∃ i, (s.table i).state = .assoc ∧
    (s.table i).staIdx = staIdx ∧ st = ⟨(s.table i).mac, apClientsAid i⟩

/-- A client of the table is in `new`, or in `old` and was not taken out since. -/
def Known (new old : Octets 6 → Prop) (s : Core) : Prop :=
  ∀ i, (s.table i).state ≠ .free →
    new (s.table i).mac ∨ (old (s.table i).mac ∧ (s.table i).mac ∉ s.removed)

structure Tracked (new old : Octets 6 → Prop) (s : Core) : Prop where
  exact : Exact s
  known : Known new old s

theorem Exact.staIdx_injective {s : Core} (h : Exact s) {i j : Slot}
    (hi : (s.table i).state = .assoc) (hj : (s.table j).state = .assoc)
    (heq : (s.table i).staIdx = (s.table j).staIdx) : i = j := by
  have hsome := (h.stations _ _).mpr ⟨i, hi, rfl, rfl⟩
  have hother := (h.stations _ _).mpr ⟨j, hj, rfl, rfl⟩
  rw [heq, hother, Option.some.injEq, Station.mk.injEq] at hsome
  exact apClientsAid_injective hsome.2.symm

/-- The LMAC holds no station and no slot a client. -/
structure Cleared (s : Core) : Prop where
  stations : s.stations = fun _ => none
  table : ∀ i, (s.table i).state = .free

/-- No client, no station. -/
theorem Exact.cleared {s : Core} (h : Exact s) (hfree : ∀ i, (s.table i).state = .free) :
    Cleared s := by
  refine ⟨?_, hfree⟩
  funext staIdx
  cases hst : s.stations staIdx with
  | none => rfl
  | some st =>
    obtain ⟨i, hi, -⟩ := (h.stations staIdx st).mp hst
    simp [hfree i] at hi

theorem Cleared.tracked {s : Core} (h : Cleared s) (new old : Octets 6 → Prop) :
    Tracked new old s := by
  refine ⟨⟨?_, ?_, ?_⟩, ?_⟩
  · intro i _ hi
    exact absurd (h.table i) hi
  · intro i hi
    simp [h.table i] at hi
  · intro staIdx st
    simp [h.stations, h.table]
  · intro i hi
    exact absurd (h.table i) hi

theorem cleared_clear {s : Core} (h : s.stations = fun _ => none) :
    Cleared { s with table := apClientsClear } := ⟨h, fun _ => rfl⟩

/-- The client and its station are gone. -/
def Core.drop (s : Core) (i : Slot) : Core :=
  if (s.table i).state = .assoc then (s.remove i).delStation (s.table i).staIdx else s.remove i

/-- The client stays, its station is gone. -/
def Core.unassoc (s : Core) (i : Slot) : Core :=
  if (s.table i).state = .assoc then (s.set i apNoSta .authed).delStation (s.table i).staIdx else s

/-- The client has got a station. -/
def Core.assoc (s : Core) (i : Slot) (staIdx : UInt8) : Core :=
  ({ s with stations := Function.update s.stations staIdx
              (some ⟨(s.table i).mac, apClientsAid i⟩) }).set i staIdx .assoc

@[simp] theorem table_drop (s : Core) (i : Slot) : (s.drop i).table = apClientsRemove s.table i := by
  unfold Core.drop
  split_ifs <;> rfl

@[simp] theorem removed_drop (s : Core) (i : Slot) :
    (s.drop i).removed = (s.table i).mac :: s.removed := by
  unfold Core.drop
  split_ifs <;> rfl

section Tracked

variable {new old : Octets 6 → Prop} {s : Core} {i : Slot}

/-- The stations without one slot's. -/
theorem Exact.stations_without (h : Exact s) (i : Slot) (staIdx : UInt8) (st : Station) :
    (if (s.table i).state = .assoc then Function.update s.stations (s.table i).staIdx none
      else s.stations) staIdx = some st ↔
      ∃ j ≠ i, (s.table j).state = .assoc ∧ (s.table j).staIdx = staIdx ∧
        st = ⟨(s.table j).mac, apClientsAid j⟩ := by
  split_ifs with hassoc
  · rw [Function.update_apply]
    constructor
    · intro hst
      split_ifs at hst with heq
      obtain ⟨j, hj, hidx, rfl⟩ := (h.stations staIdx st).mp hst
      refine ⟨j, ?_, hj, hidx, rfl⟩
      rintro rfl
      exact heq hidx.symm
    · rintro ⟨j, hne, hj, rfl, rfl⟩
      rw [if_neg fun heq => hne (h.staIdx_injective hj hassoc heq)]
      exact (h.stations _ _).mpr ⟨j, hj, rfl, rfl⟩
  · rw [h.stations]
    constructor
    · rintro ⟨j, hj, hidx, rfl⟩
      refine ⟨j, ?_, hj, hidx, rfl⟩
      rintro rfl
      exact hassoc hj
    · rintro ⟨j, -, hj, hidx, rfl⟩
      exact ⟨j, hj, hidx, rfl⟩

theorem Tracked.drop (h : Tracked new old s) (hi : (s.table i).state ≠ .free) :
    Tracked new old (s.drop i) := by
  have hfree : ∀ j, ((s.drop i).table j).state ≠ .free → j ≠ i ∧ (s.drop i).table j = s.table j := by
    intro j hj
    rw [table_drop, apClientsRemove, Function.update_apply] at hj ⊢
    split_ifs at hj ⊢ with heq
    · simp [ApClient.zero] at hj
    · exact ⟨heq, rfl⟩
  have hstay : ∀ j, j ≠ i → (s.drop i).table j = s.table j := by
    intro j hj
    rw [table_drop, apClientsRemove, Function.update_of_ne hj]
  refine ⟨⟨?_, ?_, ?_⟩, ?_⟩
  · intro j k hj hk heq
    obtain ⟨-, hjs⟩ := hfree j hj
    obtain ⟨-, hks⟩ := hfree k hk
    rw [hjs] at hj heq
    rw [hks] at hk heq
    exact h.exact.distinct j k hj hk heq
  · intro j hj
    obtain ⟨-, hjs⟩ := hfree j (by rw [hj]; decide)
    rw [hjs] at hj ⊢
    exact h.exact.valid j hj
  · intro staIdx st
    have hstations : (s.drop i).stations = if (s.table i).state = .assoc then
        Function.update s.stations (s.table i).staIdx none else s.stations := by
      unfold Core.drop
      split_ifs <;> rfl
    rw [hstations, h.exact.stations_without]
    constructor
    · rintro ⟨j, hne, hj⟩
      exact ⟨j, by rwa [hstay j hne]⟩
    · rintro ⟨j, hj⟩
      obtain ⟨hne, hjs⟩ := hfree j (by rw [hj.1]; decide)
      rw [hjs] at hj
      exact ⟨j, hne, hj⟩
  · intro j hj
    obtain ⟨hne, hjs⟩ := hfree j hj
    rw [hjs] at hj ⊢
    have hmac : (s.table j).mac ≠ (s.table i).mac := fun heq =>
      hne (h.exact.distinct j i hj hi heq)
    rw [removed_drop, List.mem_cons, not_or]
    exact (h.known j hj).imp_right fun ⟨hold, hmem⟩ => ⟨hold, hmac, hmem⟩

theorem Tracked.add {mac : Octets 6} (h : Tracked new old s) (hnew : new mac) :
    Tracked new old (s.add mac) := by
  unfold Core.add
  rcases apClientsAdd_cases s.table mac with heq | ⟨hfind, i, hfree, heq⟩
  · rw [heq]
    exact h
  rw [heq]
  have hmac := apClientsFind_none hfind
  refine ⟨⟨?_, ?_, ?_⟩, ?_⟩
  · intro j k
    simp only [Function.update_apply]
    split_ifs with hj hk hk
    · simp [hj, hk]
    · intro _ hlive hsame
      exact absurd hsame.symm (hmac k hlive)
    · intro hlive _ hsame
      exact absurd hsame (hmac j hlive)
    · exact h.exact.distinct j k
  · intro j
    simp only [Function.update_apply]
    split_ifs
    · simp
    · exact h.exact.valid j
  · intro staIdx st
    rw [h.exact.stations]
    refine exists_congr fun j => ?_
    simp only [Function.update_apply]
    split_ifs with hj
    · simp [hj, hfree]
    · rfl
  · intro j
    simp only [Function.update_apply]
    split_ifs with hj
    · exact fun _ => .inl hnew
    · exact h.known j

theorem Tracked.unassoc (h : Tracked new old s) (hi : (s.table i).state ≠ .free) :
    Tracked new old (s.unassoc i) ∧ ((s.unassoc i).table i).state = .authed ∧
      ((s.unassoc i).table i).mac = (s.table i).mac := by
  unfold Core.unassoc
  split_ifs with hassoc
  · have hmac : ∀ j, (((s.set i apNoSta .authed).delStation (s.table i).staIdx).table j).mac =
        (s.table j).mac := by
      intro j
      simp only [Core.set, Core.delStation, Function.update_apply]
      split_ifs with hj
      · rw [hj]
      · rfl
    have hlive : ∀ j, (((s.set i apNoSta .authed).delStation (s.table i).staIdx).table j).state ≠
        .free → (s.table j).state ≠ .free := by
      intro j
      simp only [Core.set, Core.delStation, Function.update_apply]
      split_ifs with hj
      · rw [hj]
        exact fun _ => hi
      · exact id
    refine ⟨⟨⟨?_, ?_, ?_⟩, ?_⟩, by simp [Core.set, Core.delStation], hmac i⟩
    · intro j k hj hk
      rw [hmac, hmac]
      exact h.exact.distinct j k (hlive j hj) (hlive k hk)
    · intro j
      simp only [Core.set, Core.delStation, Function.update_apply]
      split_ifs with hj
      · simp
      · exact h.exact.valid j
    · intro staIdx st
      have hwithout := h.exact.stations_without i staIdx st
      rw [if_pos hassoc] at hwithout
      refine hwithout.trans (exists_congr fun j => ?_)
      simp only [Core.set, Core.delStation, Function.update_apply]
      split_ifs with hj
      · simp [hj]
      · simp [hj]
    · intro j hj
      rw [hmac]
      exact h.known j (hlive j hj)
  · refine ⟨h, ?_, rfl⟩
    cases hstate : (s.table i).state with
    | free => exact absurd hstate hi
    | authed => rfl
    | assoc => exact absurd hstate hassoc

theorem Tracked.assoc {staIdx : UInt8} (h : Tracked new old s) (hi : (s.table i).state = .authed)
    (hvalid : staIdx ≠ apNoSta) (hfresh : s.stations staIdx = none) :
    Tracked new old (s.assoc i staIdx) := by
  have hmac : ∀ j, ((s.assoc i staIdx).table j).mac = (s.table j).mac := by
    intro j
    simp only [Core.assoc, Core.set, Function.update_apply]
    split_ifs with hj
    · rw [hj]
    · rfl
  have hlive : ∀ j, ((s.assoc i staIdx).table j).state ≠ .free → (s.table j).state ≠ .free := by
    intro j
    simp only [Core.assoc, Core.set, Function.update_apply]
    split_ifs with hj
    · simp [hj, hi]
    · exact id
  refine ⟨⟨?_, ?_, ?_⟩, ?_⟩
  · intro j k hj hk
    rw [hmac, hmac]
    exact h.exact.distinct j k (hlive j hj) (hlive k hk)
  · intro j
    simp only [Core.assoc, Core.set, Function.update_apply]
    split_ifs with hj
    · exact fun _ => hvalid
    · exact h.exact.valid j
  · intro other st
    simp only [Core.assoc, Core.set, Function.update_apply]
    by_cases hother : other = staIdx
    · rw [if_pos hother, Option.some.injEq]
      constructor
      · rintro rfl
        exact ⟨i, by simp [hother]⟩
      · rintro ⟨j, hj⟩
        by_cases hji : j = i
        · simp only [hji, if_true] at hj
          exact hj.2.2.symm
        · simp only [hji, if_false] at hj
          have hsome := (h.exact.stations _ _).mpr ⟨j, hj⟩
          rw [hother, hfresh] at hsome
          exact absurd hsome (by simp)
    · rw [if_neg hother, h.exact.stations]
      refine exists_congr fun j => ?_
      by_cases hji : j = i
      · simp [hji, hi, Ne.symm hother]
      · simp [hji]
  · intro j hj
    rw [hmac]
    exact h.known j (hlive j hj)

/-! ## One frame -/

variable {Q : Unit → Core → Prop}

theorem wp_sendFrame {frame : List UInt8} (h : Q () s) : Wp lmac Q (sendFrame frame) s := by
  unfold sendFrame
  split_ifs
  · exact h
  · refine wp_command.mpr ?_
    rintro vif _ rfl
    refine wp_command.mpr ?_
    rintro sent _ rfl
    exact h

-- a frame is not built when its program is only looked at
seal sendFrame

theorem wp_sendDeauth {da : Octets 6} {reason : UInt16} (h : Q () s) :
    Wp lmac Q (sendDeauth da reason) s := by
  refine wp_command.mpr ?_
  rintro bss _ rfl
  exact wp_sendFrame h

theorem wp_sendAuthResp {rx : ApRx} {status : UInt16} (h : Q () s) :
    Wp lmac Q (sendAuthResp rx status) s := by
  refine wp_command.mpr ?_
  rintro bss _ rfl
  exact wp_sendFrame h

theorem wp_dropClient (hs : Exact s) (h : Q () (s.drop i)) : Wp lmac Q (dropClient i) s := by
  refine wp_command.mpr ?_
  rintro state _ ⟨rfl, rfl⟩
  unfold Core.drop at h
  unfold stationOf
  split_ifs at h ⊢ with hassoc
  · refine wp_command.mpr ?_
    rintro staIdx _ ⟨rfl, rfl⟩
    refine wp_command.mpr ?_
    rintro _ _ rfl
    rw [if_pos (hs.valid i hassoc)]
    rintro _ _ rfl
    exact h
  · refine wp_command.mpr ?_
    rintro _ _ rfl
    exact h

theorem wp_dropFound {mac : Octets 6} (h : Tracked new old s) :
    Wp lmac (fun _ => Tracked new old) (dropFound (apClientsFind s.table mac)) s := by
  cases hfind : apClientsFind s.table mac with
  | none => exact h
  | some i => exact wp_dropClient h.exact (h.drop (apClientsFind_some hfind).1)

theorem wp_onAuth {rx : ApRx} (h : Tracked new old s)
    (hnew : rx.authAlg = 0 → rx.authSeq = 1 → new rx.sa) :
    Wp lmac (fun _ => Tracked new old) (onAuth rx) s := by
  unfold onAuth
  split_ifs with halg hseq
  · exact wp_sendAuthResp h
  · exact wp_sendAuthResp h
  · have hsa := hnew (not_not.mp halg) (not_not.mp hseq)
    refine wp_command.mpr ?_
    rintro found _ ⟨rfl, rfl⟩
    refine wp_bind.mpr ((wp_dropFound h).mono fun _ s₂ h₂ => ?_)
    refine wp_command.mpr ?_
    rintro added _ ⟨rfl, rfl⟩
    exact wp_sendAuthResp (h₂.add hsa)

theorem wp_replaceStation (h : Q () (s.unassoc i)) : Wp lmac Q (replaceStation i) s := by
  refine wp_command.mpr ?_
  rintro state _ ⟨rfl, rfl⟩
  unfold Core.unassoc at h
  split_ifs at h ⊢
  · refine wp_command.mpr ?_
    rintro old _ ⟨rfl, rfl⟩
    refine wp_command.mpr ?_
    rintro _ _ rfl
    rintro _ _ rfl
    exact h
  · exact h

theorem wp_concludeAssoc {rx : ApRx} {added : Option UInt8} {s' : Core} {vif : UInt8}
    (h : Tracked new old s) (hi : (s.table i).state = .authed) (hmac : (s.table i).mac = rx.sa)
    (hadd : lmac (.meStaAdd vif rx.sa (apClientsAid i)) s added s') :
    Wp lmac (fun _ => Tracked new old) (concludeAssoc rx i added) s' := by
  cases added with
  | none =>
    obtain rfl := hadd
    refine wp_bind.mpr (wp_dropClient h.exact (wp_sendDeauth (h.drop ?_)))
    rw [hi]
    decide
  | some staIdx =>
    obtain ⟨hvalid, hfresh, rfl⟩ := hadd
    refine wp_command.mpr ?_
    rintro _ _ rfl
    refine wp_command.mpr ?_
    rintro isOpen _ rfl
    rw [← hmac]
    exact h.assoc hi hvalid hfresh

theorem wp_onAssoc {rx : ApRx} {reassoc : Bool} (h : Tracked new old s) :
    Wp lmac (fun _ => Tracked new old) (onAssoc rx reassoc) s := by
  refine wp_command.mpr ?_
  rintro found s₁ ⟨rfl, rfl⟩
  cases hfind : apClientsFind s₁.table rx.sa with
  | none => exact wp_sendDeauth h
  | some i =>
    obtain ⟨hlive, hmac⟩ := apClientsFind_some hfind
    obtain ⟨h₁, hauthed, hsame⟩ := h.unassoc hlive
    refine wp_bind.mpr (wp_replaceStation ?_)
    refine wp_command.mpr ?_
    rintro bss _ rfl
    refine wp_bind.mpr (wp_sendFrame ?_)
    refine wp_command.mpr ?_
    rintro vif _ rfl
    refine wp_command.mpr ?_
    intro added s₂ hadd
    exact wp_concludeAssoc h₁ hauthed (hsame.trans hmac) hadd

theorem wp_onProbe {rx : ApRx} (h : Q () s) : Wp lmac Q (onProbe rx) s := by
  refine wp_command.mpr ?_
  rintro bss _ rfl
  split_ifs
  · refine wp_command.mpr ?_
    rintro bss _ rfl
    exact wp_sendFrame h
  · exact h

/-- The frame is an open-system authentication request from `mac`. -/
def Authenticates (frame : List UInt8) (mac : Octets 6) : Prop :=
  ∃ rx, apParse frame = some rx ∧ rx.kind = .auth ∧ rx.authAlg = 0 ∧ rx.authSeq = 1 ∧ rx.sa = mac

theorem wp_onAddressed {rx : ApRx} {frame : List UInt8} (hparse : apParse frame = some rx)
    (hnew : ∀ mac, Authenticates frame mac → new mac) (h : Tracked new old s) :
    Wp lmac (fun _ => Tracked new old) (onAddressed rx) s := by
  unfold onAddressed
  cases hkind : rx.kind with
  | auth =>
    exact wp_onAuth h fun halg hseq => hnew rx.sa ⟨rx, hparse, hkind, halg, hseq, rfl⟩
  | assocReq => exact wp_onAssoc h
  | reassocReq => exact wp_onAssoc h
  | disassoc | deauth =>
    refine wp_command.mpr ?_
    rintro found _ ⟨rfl, rfl⟩
    exact wp_dropFound h
  | probeReq => exact h

/-- Every frame, whatever the LMAC makes of the requests. -/
theorem wp_handleFrame {frame : List UInt8} (hnew : ∀ mac, Authenticates frame mac → new mac)
    (h : Tracked new old s) : Wp lmac (fun _ => Tracked new old) (handleFrame frame) s := by
  unfold handleFrame
  cases hparse : apParse frame with
  | none => exact h
  | some rx =>
    refine wp_command.mpr ?_
    rintro bss _ rfl
    split_ifs
    · exact h
    · exact wp_onProbe h
    · refine wp_command.mpr ?_
      rintro bss _ rfl
      split_ifs
      · exact wp_onAddressed hparse hnew h
      · exact h

/-- The loop of `wifi_ap_stop` empties the slots it visits. -/
theorem wp_clearClients {slots : List Slot} (h : Tracked new old s)
    (hrest : ∀ j ∉ slots, (s.table j).state = .free) :
    Wp lmac (fun _ s' => Tracked new old s' ∧ ∀ j, (s'.table j).state = .free)
      (clearClients slots) s := by
  induction slots generalizing s with
  | nil => exact ⟨h, fun j => hrest j (by simp)⟩
  | cons i slots ih =>
    refine wp_command.mpr ?_
    rintro state s₁ ⟨rfl, rfl⟩
    unfold dropLive
    split_ifs with hlive
    · refine wp_bind.mpr (wp_dropClient h.exact (ih (h.drop hlive) fun j hj => ?_))
      rw [table_drop, apClientsRemove, Function.update_apply]
      split_ifs with hji
      · rfl
      · exact hrest j (by simp [hji, hj])
    · refine ih h fun j hj => ?_
      by_cases hji : j = i
      · rw [hji]
        exact not_not.mp hlive
      · exact hrest j (by simp [hji, hj])

end Tracked

/-! ## With the flag and the mutex -/

/-- The commands that neither look at `s_running` nor at the mutex of the session. -/
def ApCmd.isCore : ApCmd → Bool
  | running | setRunning _ | sessionTake | sessionGive => false
  | _ => true

section Core

variable {α β : Type}

theorem shared_of_isCore {a : α} {c : ApCmd} (h : c.isCore = true) {s s' : Shared α} {r : c.Answer} :
    shared a c s r s' ↔ ∃ core, lmac c s.core r core ∧ s' = { s with core := core } := by
  cases c <;> first | exact Iff.rfl | simp [ApCmd.isCore] at h

/-- A program without those commands runs on the table and the LMAC alone. -/
theorem wp_shared {a : α} {m : ApM β} (hm : Only (fun c => c.isCore = true) m)
    {Q : β → Core → Prop} {s : Shared α} (h : Wp lmac Q m s.core) :
    Wp (shared a) (fun b s' => ∃ core, Q b core ∧ s' = { s with core := core }) m s := by
  induction m generalizing s with
  | ret b => exact ⟨s.core, h, rfl⟩
  | call c k ih =>
    intro r s' hdev
    obtain ⟨core, hcore, rfl⟩ := (shared_of_isCore hm.1).mp hdev
    exact ih r (hm.2 r) (s := { s with core := core }) (h r core hcore)

theorem core_sendFrame (frame : List UInt8) : Only (fun c => c.isCore = true) (sendFrame frame) :=
  only_ite (only_pure _) ⟨rfl, fun _ => ⟨rfl, fun _ => trivial⟩⟩

seal sendFrame

theorem core_sendDeauth (da : Octets 6) (reason : UInt16) :
    Only (fun c => c.isCore = true) (sendDeauth da reason) :=
  only_bind (m := readBss) ⟨rfl, fun _ => trivial⟩ fun _ => core_sendFrame _

theorem core_sendAuthResp (rx : ApRx) (status : UInt16) :
    Only (fun c => c.isCore = true) (sendAuthResp rx status) :=
  only_bind (m := readBss) ⟨rfl, fun _ => trivial⟩ fun _ => core_sendFrame _

/-- The commands that take a client out. -/
def ApCmd.isDrop : ApCmd → Bool
  | clientState _ | clientStaIdx _ | lockedRemove _ | meStaDel _ => true
  | _ => false

theorem ApCmd.isCore_of_isDrop (c : ApCmd) (h : c.isDrop = true) : c.isCore = true := by
  cases c <;> first | rfl | simp [ApCmd.isDrop] at h

theorem drop_dropClient (i : Slot) : Only (fun c => c.isDrop = true) (dropClient i) :=
  only_bind (m := clientState i) ⟨rfl, fun _ => trivial⟩ fun _ =>
    only_bind (only_ite ⟨rfl, fun _ => trivial⟩ (only_pure _)) fun _ =>
      only_bind (m := lockedRemove i) ⟨rfl, fun _ => trivial⟩ fun _ =>
        only_ite ⟨rfl, fun _ => trivial⟩ (only_pure _)

theorem core_dropClient (i : Slot) : Only (fun c => c.isCore = true) (dropClient i) :=
  (drop_dropClient i).mono ApCmd.isCore_of_isDrop

theorem core_dropFound (found : Option Slot) :
    Only (fun c => c.isCore = true) (dropFound found) := by
  cases found with
  | none => exact only_pure _
  | some i => exact core_dropClient i

theorem core_onAuth (rx : ApRx) : Only (fun c => c.isCore = true) (onAuth rx) := by
  refine only_ite (core_sendAuthResp _ _) (only_ite (core_sendAuthResp _ _) ?_)
  refine only_bind (m := clientsFind rx.sa) ⟨rfl, fun _ => trivial⟩ fun found => ?_
  refine only_bind (core_dropFound found) fun _ => ?_
  exact only_bind (m := lockedAdd rx.sa) ⟨rfl, fun _ => trivial⟩ fun _ => core_sendAuthResp _ _

theorem core_replaceStation (i : Slot) : Only (fun c => c.isCore = true) (replaceStation i) :=
  only_bind (m := clientState i) ⟨rfl, fun _ => trivial⟩ fun _ =>
    only_ite ⟨rfl, fun _ => ⟨rfl, fun _ => ⟨rfl, fun _ => trivial⟩⟩⟩ (only_pure _)

theorem core_concludeAssoc (rx : ApRx) (i : Slot) (added : Option UInt8) :
    Only (fun c => c.isCore = true) (concludeAssoc rx i added) := by
  cases added with
  | none => exact only_bind (core_dropClient i) fun _ => core_sendDeauth _ _
  | some staIdx => exact ⟨rfl, fun _ => ⟨rfl, fun _ => trivial⟩⟩

theorem core_onAssoc (rx : ApRx) (reassoc : Bool) :
    Only (fun c => c.isCore = true) (onAssoc rx reassoc) := by
  refine only_bind (m := clientsFind rx.sa) ⟨rfl, fun _ => trivial⟩ fun found => ?_
  cases found with
  | none => exact core_sendDeauth _ _
  | some i =>
    refine only_bind (core_replaceStation i) fun _ => ?_
    refine only_bind (m := readBss) ⟨rfl, fun _ => trivial⟩ fun bss => ?_
    refine only_bind (core_sendFrame _) fun _ => ?_
    refine only_bind (m := readVif) ⟨rfl, fun _ => trivial⟩ fun vif => ?_
    exact only_bind (m := meStaAdd vif rx.sa _) ⟨rfl, fun _ => trivial⟩ fun added =>
      core_concludeAssoc rx i added

theorem core_onAddressed (rx : ApRx) : Only (fun c => c.isCore = true) (onAddressed rx) := by
  unfold onAddressed
  cases rx.kind with
  | auth => exact core_onAuth rx
  | assocReq | reassocReq => exact core_onAssoc rx _
  | disassoc | deauth =>
    exact only_bind (m := clientsFind rx.sa) ⟨rfl, fun _ => trivial⟩ fun found =>
      core_dropFound found
  | probeReq => exact only_pure _

theorem core_onProbe (rx : ApRx) : Only (fun c => c.isCore = true) (onProbe rx) :=
  only_bind (m := readBss) ⟨rfl, fun _ => trivial⟩ fun _ =>
    only_ite (only_bind (m := readBss) ⟨rfl, fun _ => trivial⟩ fun _ => core_sendFrame _)
      (only_pure _)

theorem core_handleFrame (frame : List UInt8) :
    Only (fun c => c.isCore = true) (handleFrame frame) := by
  unfold handleFrame
  cases apParse frame with
  | none => exact only_pure _
  | some rx =>
    refine only_bind (m := readBss) ⟨rfl, fun _ => trivial⟩ fun bss => ?_
    refine only_ite (only_pure _) (only_ite (core_onProbe rx) ?_)
    exact only_bind (m := readBss) ⟨rfl, fun _ => trivial⟩ fun _ =>
      only_ite (core_onAddressed rx) (only_pure _)

theorem drop_clearClients (slots : List Slot) :
    Only (fun c => c.isDrop = true) (clearClients slots) := by
  induction slots with
  | nil => exact only_pure _
  | cons i slots ih =>
    exact only_bind (m := clientState i) ⟨rfl, fun _ => trivial⟩ fun _ =>
      only_bind (only_ite (drop_dropClient i) (only_pure _)) fun _ => ih

theorem core_clearClients (slots : List Slot) :
    Only (fun c => c.isCore = true) (clearClients slots) :=
  (drop_clearClients slots).mono ApCmd.isCore_of_isDrop

end Core

end BekenCam.Ap
