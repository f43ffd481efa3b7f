import BekenCam.ApClients

/-!
# One session of the access point

A start that the LMAC accepts, then frames one after the other, then a stop. Between the frames
the table mirrors the stations, and every associated client has authenticated since it was last
taken out.
-/
namespace BekenCam.Ap

open Prog

/-- The frames handled so far, the newest first, each with the clients it took out of the table. -/
abbrev ApHistory := List (List UInt8 × List (Octets 6))

/-- A frame that takes a client out can be the one that it authenticates with again. -/
def AuthedSince : ApHistory → Octets 6 → Prop
  | [], _ => False
  | (frame, removed) :: hist, mac => Authenticates frame mac ∨ (AuthedSince hist mac ∧ mac ∉ removed)

/-- A session after some frames. The LMAC held no station at its start. -/
inductive ApSession : ApHistory → Shared Unit → Prop
  | started {config : ApConfig} {s₀ s : Shared Unit} {es : List (Σ c : ApCmd, c.Answer)}
      (hempty : s₀.core.stations = fun _ => none) (hfree : s₀.session = none)
      (hrun : Performs (wifiApStart config) es true) (hsteps : Steps (shared ()) s₀ es s) :
      ApSession [] s
  | frame {hist : ApHistory} {s s' : Shared Unit} {frame : List UInt8}
      {es : List (Σ c : ApCmd, c.Answer)} (hbefore : ApSession hist s)
      (hrun : Performs (dhcpServerTask frame) es ())
      (hsteps : Steps (shared ()) { s with core := { s.core with removed := [] } } es s') :
      ApSession ((frame, s'.core.removed) :: hist) s'

-- a frame is not built when its program is only looked at
seal apBuildBeacon sendFrame

/-! ## The start -/

section Start

variable {α : Type} {a : α} {s : Shared α}

/-- The flag is up, and the table and the LMAC are empty. -/
structure Fresh (s : Shared α) : Prop where
  running : s.running = true
  session : s.session = none
  table : s.core.table = apClientsClear
  stations : s.core.stations = fun _ => none

theorem wp_confirmStart {config : ApConfig} {beacon : List UInt8} {timOft timLen : ℕ}
    (h : Fresh s) : Wp (shared a) (fun ok s' => ok = true → Fresh s')
      (confirmStart config beacon timOft timLen) s := by
  refine wp_command.mpr ?_
  rintro vif _ ⟨_, rfl, rfl⟩
  refine wp_command.mpr ?_
  rintro cfm _ ⟨_, rfl, rfl⟩
  cases cfm with
  | none =>
    refine wp_command.mpr ?_
    rintro _ _ rfl
    exact nofun
  | some bcmcIdx =>
    refine wp_command.mpr ?_
    rintro _ _ ⟨_, rfl, rfl⟩
    refine wp_command.mpr ?_
    rintro _ _ ⟨_, rfl, rfl⟩
    exact fun _ => h

theorem wp_beginStart {config : ApConfig} {bss : ApBss} {vif : UInt8}
    (hempty : s.core.stations = fun _ => none) (hfree : s.session = none) :
    Wp (shared a) (fun ok s' => ok = true → Fresh s') (beginStart config bss vif) s := by
  refine wp_command.mpr ?_
  rintro _ _ ⟨_, rfl, rfl⟩
  refine wp_command.mpr ?_
  rintro _ _ ⟨_, rfl, rfl⟩
  refine wp_command.mpr ?_
  rintro _ _ ⟨_, rfl, rfl⟩
  refine wp_command.mpr ?_
  rintro bss' _ ⟨_, rfl, rfl⟩
  obtain ⟨beacon, timOft, timLen⟩ := apBuildBeacon bss' apFrameMax
  dsimp only
  split_ifs
  · exact nofun
  · refine wp_command.mpr ?_
    rintro parked _ ⟨_, rfl, rfl⟩
    refine wp_command.mpr ?_
    rintro _ _ rfl
    exact wp_confirmStart ⟨rfl, hfree, rfl, hempty⟩

theorem wp_wifiApStart {config : ApConfig} (hempty : s.core.stations = fun _ => none)
    (hfree : s.session = none) :
    Wp (shared a) (fun ok s' => ok = true → Fresh s') (wifiApStart config) s := by
  unfold wifiApStart
  split_ifs
  · exact nofun
  · exact nofun
  · refine wp_command.mpr ?_
    rintro running _ ⟨rfl, -⟩
    split_ifs
    · exact nofun
    · refine wp_command.mpr ?_
      rintro iface _ ⟨_, rfl, rfl⟩
      cases iface with
      | none => exact nofun
      | some found =>
        refine wp_command.mpr ?_
        rintro ready _ ⟨_, rfl, rfl⟩
        dsimp only
        split_ifs
        · exact wp_beginStart hempty hfree
        · exact nofun

theorem Fresh.cleared (h : Fresh s) : Cleared s.core :=
  ⟨h.stations, fun i => by rw [h.table]; rfl⟩

end Start

/-! ## The frames -/

/-- What holds between two frames. -/
structure Between (hist : ApHistory) (s : Shared Unit) : Prop where
  running : s.running = true
  session : s.session = none
  tracked : Tracked (AuthedSince hist) (fun _ => False) s.core

/-- Before a frame, with nothing taken out yet. -/
theorem Tracked.next {hist : ApHistory} {core : Core} {new : Octets 6 → Prop}
    (h : Tracked (AuthedSince hist) (fun _ => False) core) :
    Tracked new (AuthedSince hist) { core with removed := [] } := by
  refine ⟨⟨h.exact.distinct, h.exact.valid, h.exact.stations⟩, fun i hi => .inr ⟨?_, by simp⟩⟩
  rcases h.known i hi with hnew | ⟨hold, -⟩
  · exact hnew
  · exact hold.elim

theorem wp_dhcpServerTask {hist : ApHistory} {s : Shared Unit} {frame : List UInt8}
    (h : Between hist s) : Wp (shared ())
      (fun _ s' => Between ((frame, s'.core.removed) :: hist) s') (dhcpServerTask frame)
      { s with core := { s.core with removed := [] } } := by
  refine wp_command.mpr ?_
  rintro _ _ ⟨-, rfl⟩
  refine wp_command.mpr ?_
  rintro running _ ⟨rfl, rfl⟩
  dsimp only
  rw [h.running]
  refine wp_bind.mpr ((wp_shared (core_handleFrame frame)
    (wp_handleFrame (fun _ => id) h.tracked.next)).mono ?_)
  rintro _ _ ⟨core, hcore, rfl⟩
  rintro _ _ rfl
  exact ⟨rfl, rfl, hcore.exact, fun i hi => .inl (hcore.known i hi)⟩

theorem ApSession.between {hist : ApHistory} {s : Shared Unit} (h : ApSession hist s) :
    Between hist s := by
  induction h with
  | started hempty hfree hrun hsteps =>
    have hfresh := (wp_wifiApStart hempty hfree).of_run hrun hsteps rfl
    exact ⟨hfresh.running, hfresh.session, hfresh.cleared.tracked _ _⟩
  | frame _ hrun hsteps ih => exact (wp_dhcpServerTask ih).of_run hrun hsteps

/-! ## The theorem -/

/-- What the table and the LMAC say of the clients. -/
structure Mirrors (hist : ApHistory) (core : Core) : Prop where
  distinct : ∀ i j, (core.table i).state ≠ .free → (core.table j).state ≠ .free →
    (core.table i).mac = (core.table j).mac → i = j
  stations : ∀ staIdx st, core.stations staIdx = some st ↔ ∃ i, (core.table i).state = .assoc ∧
    (core.table i).staIdx = staIdx ∧ st = ⟨(core.table i).mac, UInt16.ofNat (i + 1)⟩
  one_each : ∀ i j, (core.table i).state = .assoc → (core.table j).state = .assoc →
    (core.table i).staIdx = (core.table j).staIdx → i = j
  authed : ∀ i, (core.table i).state = .assoc → AuthedSince hist (core.table i).mac

theorem wp_clearSession {α : Type} {a : α} {new old : Octets 6 → Prop} {s : Shared α}
    (h : Tracked new old s.core) :
    Wp (shared a) (fun _ s' => Cleared s'.core) clearSession s := by
  refine wp_command.mpr ?_
  rintro _ _ ⟨-, rfl⟩
  have hrest : ∀ j ∉ List.finRange apClientsMax, (s.core.table j).state = .free :=
    fun j hj => absurd (List.mem_finRange j) hj
  have hclear := wp_clearClients h hrest
  refine wp_bind.mpr ((wp_shared (s := { s with session := some a }) (core_clearClients _)
    hclear).mono ?_)
  rintro _ _ ⟨core, ⟨hcore, hfree⟩, rfl⟩
  refine wp_command.mpr ?_
  rintro _ _ rfl
  refine wp_command.mpr ?_
  rintro vif _ ⟨_, rfl, rfl⟩
  rintro ok _ ⟨_, rfl, rfl⟩
  exact hcore.exact.cleared hfree

theorem wp_wifiApStop {hist : ApHistory} {s : Shared Unit} (h : Between hist s) :
    Wp (shared ()) (fun _ s' => Cleared s'.core) wifiApStop s := by
  refine wp_command.mpr ?_
  rintro running _ ⟨rfl, rfl⟩
  rw [if_pos h.running]
  refine wp_command.mpr ?_
  rintro _ _ rfl
  refine wp_command.mpr ?_
  rintro _ _ ⟨_, rfl, rfl⟩
  exact wp_clearSession h.tracked

/-- In a session, after any frames and any answers of the LMAC, the table mirrors the stations, and
a stop leaves neither clients nor stations. -/
theorem wifiAp_mirrors {hist : ApHistory} {s : Shared Unit} (h : ApSession hist s) :
    Mirrors hist s.core ∧ ∀ es ok s', Performs wifiApStop es ok → Steps (shared ()) s es s' →
      Cleared s'.core := by
  have hbetween := h.between
  have hexact := hbetween.tracked.exact
  refine ⟨⟨hexact.distinct, hexact.stations, fun i j => hexact.staIdx_injective, ?_⟩, ?_⟩
  · intro i hi
    rcases hbetween.tracked.known i (by rw [hi]; decide) with hnew | ⟨hold, -⟩
    · exact hnew
    · exact hold.elim
  · intro es ok s' hrun hsteps
    exact (wp_wifiApStop hbetween).of_run hrun hsteps

/-! A session with one client that authenticates and associates. -/

/-- Every request of `a` is granted, and the station has index 0. `APM_START_REQ` is answered with
`bcmc`. -/
def granting {α : Type} (a : α) (own : ApBss) (bcmc : Option UInt8) :
    Handler ApCmd ApCmd.Answer (Shared α)
  | .lockedAdd mac, s => ((apClientsAdd s.core.table mac).1, { s with core := s.core.add mac })
  | .lockedRemove i, s => ((), { s with core := s.core.remove i })
  | .lockedSet i staIdx state, s => ((), { s with core := s.core.set i staIdx state })
  | .lockedClear, s => ((), { s with core := { s.core with table := apClientsClear } })
  | .clientsFind mac, s => (apClientsFind s.core.table mac, s)
  | .clientState i, s => ((s.core.table i).state, s)
  | .clientStaIdx i, s => ((s.core.table i).staIdx, s)
  | .lockedSetBcmc _, s | .setBss _, s | .setVif _, s | .apLinkUp, s | .apLinkDown, s => ((), s)
  | .bss, s => (own, s)
  | .vif, s => ((0 : UInt8), s)
  | .running, s => (s.running, s)
  | .setRunning on, s => ((), { s with running := on })
  | .sessionTake, s => ((), { s with session := some a })
  | .sessionGive, s => ((), { s with session := none })
  | .meStaAdd _ mac aid, s => (some (0 : UInt8),
      { s with core := { s.core with
          stations := Function.update s.core.stations 0 (some ⟨mac, aid⟩) } })
  | .meStaDel staIdx, s => ((), { s with core := s.core.delStation staIdx })
  | .meSetControlPort _ _, s | .mgmtTx _ _, s | .setChannel _, s | .apmStop _, s
  | .sessionInit, s => (true, s)
  | .apmStart _ _ _ _ _, s => (bcmc, s)
  | .ensureIface, s => (some (own.bssid, (0 : UInt8)), s)

/-- The mutex is taken when it is free, and the station's index is free when it is given. -/
def grantable {α : Type} : ApCmd → Shared α → Bool
  | .sessionTake, s => s.session.isNone
  | .meStaAdd _ _ _, s => (s.core.stations 0).isNone
  | _, _ => true

theorem shared_granting {α : Type} (a : α) (own : ApBss) (bcmc : Option UInt8) (c : ApCmd)
    (s : Shared α) (h : grantable c s = true) :
    shared a c s (granting a own bcmc c s).1 (granting a own bcmc c s).2 := by
  cases c with
  | running => exact ⟨rfl, rfl⟩
  | setRunning | sessionGive => exact rfl
  | sessionTake => exact ⟨Option.isNone_iff_eq_none.mp h, rfl⟩
  | meStaAdd => exact ⟨_, ⟨by decide, Option.isNone_iff_eq_none.mp h, rfl⟩, rfl⟩
  | lockedAdd | clientsFind | clientState | clientStaIdx => exact ⟨_, ⟨rfl, rfl⟩, rfl⟩
  | _ => exact ⟨_, rfl, rfl⟩

def ownBss : ApBss := ⟨⟨[2, 0, 0, 0, 0, 1], rfl⟩, [0x62, 0x6b], 6, by decide⟩

def clientMac : Octets 6 := ⟨[4, 0, 0, 0, 0, 9], rfl⟩

/-- A management frame of the client with the given first octet and body. -/
def clientFrame (typeSubtype : UInt8) (body : List UInt8) : List UInt8 :=
  [typeSubtype, 0, 0, 0] ++ ownBss.bssid.val ++ clientMac.val ++ ownBss.bssid.val ++ [0, 0] ++ body

def authFrame : List UInt8 := clientFrame 0xB0 [0, 0, 1, 0, 0, 0]

def assocFrame : List UInt8 := clientFrame 0x00 [0x21, 0x04, 10, 0]

abbrev accepting : Handler ApCmd ApCmd.Answer (Shared Unit) := granting () ownBss (some 1)

def poweredOn : Shared Unit := ⟨⟨apClientsClear, fun _ => none, []⟩, false, none⟩

/-- The session after the start, after the authentication and after the association. -/
def afterStart : Shared Unit :=
  (Prog.run accepting (wifiApStart ⟨ownBss.ssid, 6⟩) poweredOn).2

def afterFrame (frame : List UInt8) (s : Shared Unit) : Shared Unit :=
  (Prog.run accepting (dhcpServerTask frame)
    { s with core := { s.core with removed := [] } }).2

theorem session_started : ApSession [] afterStart := by
  have hrun : Performs (wifiApStart ⟨ownBss.ssid, 6⟩) (events accepting _ poweredOn)
      (Prog.run accepting (wifiApStart ⟨ownBss.ssid, 6⟩) poweredOn).1 :=
    performs_events _ _ _
  have hok : (Prog.run accepting (wifiApStart ⟨ownBss.ssid, 6⟩) poweredOn).1 = true := by
    decide +kernel
  rw [hok] at hrun
  exact .started rfl rfl hrun (steps_events (shared_granting () ownBss (some 1)) (by decide +kernel))

theorem session_frame {hist : ApHistory} {s : Shared Unit} {frame : List UInt8}
    (h : ApSession hist s) (hasks : AsksOnly accepting grantable (dhcpServerTask frame)
      { s with core := { s.core with removed := [] } } = true) :
    ApSession ((frame, (afterFrame frame s).core.removed) :: hist) (afterFrame frame s) :=
  .frame h (performs_events _ _ _) (steps_events (shared_granting () ownBss (some 1)) hasks)

/-- The client of slot 0 is associated after the two frames. -/
theorem wifiAp_mirrors_associated :
    ((afterFrame assocFrame (afterFrame authFrame afterStart)).core.table 0).state = .assoc ∧
      ∃ hist, Mirrors hist (afterFrame assocFrame (afterFrame authFrame afterStart)).core :=
  ⟨by decide +kernel, _, (wifiAp_mirrors (session_frame
    (session_frame session_started (by decide +kernel)) (by decide +kernel))).1⟩

end BekenCam.Ap
