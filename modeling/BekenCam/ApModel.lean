import BekenCam.ApFrames
import BekenCam.DeviceRuns
import Mathlib.Data.Fintype.Basic

/-!
# The access point

`wifi_ap_start`, `wifi_ap_stop` and the task that answers management frames, as programs. Each
section under the table's mutex, each look at the table outside of it, each access to a static
variable and each request to the LMAC is one command. Log lines and the queue between the frame
hook and the task are left out.
-/
namespace BekenCam.Ap

/-! ## The client table -/

@[simp] abbrev apClientsMax : ℕ := 4

/-- No LMAC station index yet, or none. -/
@[simp] abbrev apNoSta : UInt8 := 0xFF

inductive ApClientState
  | free
  | authed
  | assoc
  deriving DecidableEq, Repr

structure ApClient where
  mac : Octets 6
  staIdx : UInt8
  state : ApClientState
  deriving DecidableEq

/-- A slot after `memset`. -/
def ApClient.zero : ApClient := ⟨Octets.zero 6, 0, .free⟩

abbrev Slot := Fin apClientsMax
abbrev ApClients := Slot → ApClient

def apClientsClear : ApClients := fun _ => .zero

def apClientsFind (t : ApClients) (mac : Octets 6) : Option Slot :=
  (List.finRange apClientsMax).find? fun i => (t i).state ≠ .free ∧ (t i).mac = mac

def apClientsAdd (t : ApClients) (mac : Octets 6) : Option Slot × ApClients :=
  match apClientsFind t mac with
  | some i => (some i, t)
  | none =>
    match (List.finRange apClientsMax).find? fun i => (t i).state = .free with
    | some i => (some i, Function.update t i ⟨mac, apNoSta, .authed⟩)
    | none => (none, t)

def apClientsRemove (t : ApClients) (i : Slot) : ApClients := Function.update t i .zero

def apClientsAid (i : Slot) : UInt16 := UInt16.ofNat (i + 1)

/-! ## Commands -/

inductive ApCmd
  -- the table, with its mutex held and without
  | lockedAdd (mac : Octets 6)
  | lockedRemove (i : Slot)
  | lockedSet (i : Slot) (staIdx : UInt8) (state : ApClientState)
  | lockedClear
  | clientsFind (mac : Octets 6)
  | clientState (i : Slot)
  | clientStaIdx (i : Slot)
  -- the other static variables
  | lockedSetBcmc (staIdx : UInt8)
  | bss
  | setBss (bss : ApBss)
  | vif
  | setVif (vif : UInt8)
  | running
  | setRunning (on : Bool)
  -- the mutex of the session
  | sessionTake
  | sessionGive
  -- requests to the LMAC
  | meStaAdd (vif : UInt8) (mac : Octets 6) (aid : UInt16)
  | meStaDel (staIdx : UInt8)
  | meSetControlPort (staIdx : UInt8) (isOpen : Bool)
  | mgmtTx (vif : UInt8) (frame : List UInt8)
  | setChannel (channel : UInt8)
  | apmStart (vif channel : UInt8) (beacon : List UInt8) (timOft timLen : ℕ)
  | apmStop (vif : UInt8)
  -- the network interface
  | ensureIface
  | sessionInit
  | apLinkUp
  | apLinkDown

/-- A request answers with whether it worked, or with the index it got. -/
@[reducible] def ApCmd.Answer : ApCmd → Type
  | lockedAdd _ | clientsFind _ => Option Slot
  | clientState _ => ApClientState
  | clientStaIdx _ => UInt8
  | bss => ApBss
  | vif => UInt8
  | running => Bool
  | meStaAdd _ _ _ => Option UInt8
  | meSetControlPort _ _ | mgmtTx _ _ | setChannel _ | apmStop _ | sessionInit => Bool
  | apmStart _ _ _ _ _ => Option UInt8
  | ensureIface => Option (Octets 6 × UInt8)
  | _ => Unit

abbrev ApM (α : Type) := Prog ApCmd ApCmd.Answer α

def lockedAdd (mac : Octets 6) : ApM (Option Slot) := Prog.command (ApCmd.lockedAdd mac)
def lockedRemove (i : Slot) : ApM Unit := Prog.command (ApCmd.lockedRemove i)
def lockedSet (i : Slot) (staIdx : UInt8) (state : ApClientState) : ApM Unit :=
  Prog.command (ApCmd.lockedSet i staIdx state)
def clientsFind (mac : Octets 6) : ApM (Option Slot) := Prog.command (ApCmd.clientsFind mac)
def clientState (i : Slot) : ApM ApClientState := Prog.command (ApCmd.clientState i)
def clientStaIdx (i : Slot) : ApM UInt8 := Prog.command (ApCmd.clientStaIdx i)
def readBss : ApM ApBss := Prog.command ApCmd.bss
def readVif : ApM UInt8 := Prog.command ApCmd.vif
def readRunning : ApM Bool := Prog.command ApCmd.running
def setRunning (on : Bool) : ApM Unit := Prog.command (ApCmd.setRunning on)
def sessionTake : ApM Unit := Prog.command ApCmd.sessionTake
def sessionGive : ApM Unit := Prog.command ApCmd.sessionGive
def meStaAdd (vif : UInt8) (mac : Octets 6) (aid : UInt16) : ApM (Option UInt8) :=
  Prog.command (ApCmd.meStaAdd vif mac aid)
def meStaDel (staIdx : UInt8) : ApM Unit := Prog.command (ApCmd.meStaDel staIdx)
def meSetControlPort (staIdx : UInt8) (isOpen : Bool) : ApM Bool :=
  Prog.command (ApCmd.meSetControlPort staIdx isOpen)
def mgmtTx (vif : UInt8) (frame : List UInt8) : ApM Bool := Prog.command (ApCmd.mgmtTx vif frame)
def setChannel (channel : UInt8) : ApM Bool := Prog.command (ApCmd.setChannel channel)
def apmStart (vif channel : UInt8) (beacon : List UInt8) (timOft timLen : ℕ) :
    ApM (Option UInt8) := Prog.command (ApCmd.apmStart vif channel beacon timOft timLen)
def apmStop (vif : UInt8) : ApM Bool := Prog.command (ApCmd.apmStop vif)
def ensureIface : ApM (Option (Octets 6 × UInt8)) := Prog.command ApCmd.ensureIface
def sessionInit : ApM Bool := Prog.command ApCmd.sessionInit
def act (c : ApCmd) : ApM c.Answer := Prog.command c

/-! ## Answering a frame -/

@[simp] abbrev apStatusOk : UInt16 := 0
@[simp] abbrev apStatusUnsupportedAlg : UInt16 := 13
@[simp] abbrev apStatusBadSequence : UInt16 := 14
@[simp] abbrev apStatusNoRoom : UInt16 := 17

@[simp] abbrev apReasonUnspecified : UInt16 := 1
@[simp] abbrev apReasonNotAuthed : UInt16 := 6

def sendFrame (frame : List UInt8) : ApM Unit :=
  if frame.length = 0 then pure ()
  else do
    let vif ← readVif
    let _ ← mgmtTx vif frame
    return ()

def sendDeauth (da : Octets 6) (reason : UInt16) : ApM Unit := do
  let bss ← readBss
  sendFrame (apBuildDeauth bss da reason apFrameMax)

/-- The station of an associated client. -/
def stationOf (i : Slot) (state : ApClientState) : ApM UInt8 :=
  if state = .assoc then clientStaIdx i else pure apNoSta

/-- Takes a client out of the LMAC, if it got that far, and frees its slot. -/
def dropClient (i : Slot) : ApM Unit := do
  let state ← clientState i
  let staIdx ← stationOf i state
  lockedRemove i
  if staIdx ≠ apNoSta then meStaDel staIdx else pure ()

def dropFound : Option Slot → ApM Unit
  | some i => dropClient i
  | none => pure ()

def sendAuthResp (rx : ApRx) (status : UInt16) : ApM Unit := do
  let bss ← readBss
  sendFrame (apBuildAuthResp bss rx.sa rx.authAlg status apFrameMax)

/-- A client that authenticates again starts over: the old station goes first. -/
def onAuth (rx : ApRx) : ApM Unit :=
  if rx.authAlg ≠ 0 then sendAuthResp rx apStatusUnsupportedAlg
  else if rx.authSeq ≠ 1 then sendAuthResp rx apStatusBadSequence
  else do
    let found ← clientsFind rx.sa
    dropFound found
    let added ← lockedAdd rx.sa
    sendAuthResp rx (if added = none then apStatusNoRoom else apStatusOk)

/-- A second request from a client already registered replaces the first. -/
def replaceStation (i : Slot) : ApM Unit := do
  let state ← clientState i
  if state = .assoc then do
    let old ← clientStaIdx i
    lockedSet i apNoSta .authed
    meStaDel old
  else pure ()

/-- What follows the answer to `ME_STA_ADD`. -/
def concludeAssoc (rx : ApRx) (i : Slot) : Option UInt8 → ApM Unit
  | none => do
    dropClient i
    sendDeauth rx.sa apReasonUnspecified
  | some staIdx => do
    lockedSet i staIdx .assoc
    let _ ← meSetControlPort staIdx true
    return ()

def onAssoc (rx : ApRx) (reassoc : Bool) : ApM Unit := do
  let found ← clientsFind rx.sa
  match found with
  | none => sendDeauth rx.sa apReasonNotAuthed
  | some i => do
    replaceStation i
    let aid := apClientsAid i
    let bss ← readBss
    sendFrame (apBuildAssocResp bss rx.sa reassoc apStatusOk aid apFrameMax)
    let vif ← readVif
    let added ← meStaAdd vif rx.sa aid
    concludeAssoc rx i added

def onProbe (rx : ApRx) : ApM Unit := do
  let bss ← readBss
  if apProbeWanted bss rx then do
    let bss ← readBss
    sendFrame (apBuildProbeResp bss rx.sa apFrameMax)
  else pure ()

/-- The frames that are addressed to this BSS. -/
def onAddressed (rx : ApRx) : ApM Unit :=
  match rx.kind with
  | .auth => onAuth rx
  | .assocReq => onAssoc rx false
  | .reassocReq => onAssoc rx true
  | .disassoc | .deauth => do
    let found ← clientsFind rx.sa
    dropFound found
  | .probeReq => pure ()

/-- The LMAC hands back a copy of every frame the access point sends; it is not answered. -/
def handleFrame (frame : List UInt8) : ApM Unit :=
  match apParse frame with
  | none => pure ()
  | some rx => do
    let bss ← readBss
    if rx.sa = bss.bssid then pure ()
    else if rx.kind = .probeReq then onProbe rx
    else do
      let bss ← readBss
      if rx.da = bss.bssid then onAddressed rx else pure ()

def handleIfRunning (running : Bool) (frame : List UInt8) : ApM Unit :=
  if running then handleFrame frame else pure ()

/-- The task's turn for one frame. -/
def dhcpServerTask (frame : List UInt8) : ApM Unit := do
  sessionTake
  let running ← readRunning
  handleIfRunning running frame
  sessionGive

/-! ## Start and stop -/

structure ApConfig where
  ssid : List UInt8
  channel : UInt8

/-- From `APM_START_REQ` on; the LMAC may refuse it. -/
def confirmStart (config : ApConfig) (beacon : List UInt8) (timOft timLen : ℕ) : ApM Bool := do
  let vif ← readVif
  let cfm ← apmStart vif config.channel beacon timOft timLen
  match cfm with
  | none => do
    setRunning false
    return false
  | some bcmcIdx => do
    act (.lockedSetBcmc bcmcIdx)
    act .apLinkUp
    return true

/-- The table is cleared and the beacon built. Frames can arrive before the confirmation does, so
`s_running` is raised first. -/
def beginStart (config : ApConfig) (bss : ApBss) (vif : UInt8) : ApM Bool := do
  act (.setBss bss)
  act (.setVif vif)
  act .lockedClear
  let bss ← readBss
  let (beacon, timOft, timLen) := apBuildBeacon bss apFrameMax
  if beacon = [] then return false
  else do
    let _ ← setChannel config.channel
    setRunning true
    confirmStart config beacon timOft timLen

def wifiApStart (config : ApConfig) : ApM Bool :=
  if h : config.ssid.length = 0 ∨ config.ssid.length > apSsidMax then pure false
  else if config.channel < 1 ∨ config.channel > 14 then pure false
  else do
    let running ← readRunning
    if running then return false
    else do
      let iface ← ensureIface
      match iface with
      | none => return false
      | some (hwaddr, vif) => do
        let ready ← sessionInit
        if ready then
          beginStart config ⟨hwaddr, config.ssid, config.channel, Nat.le_of_not_gt (not_or.mp h).2⟩
            vif
        else return false

def dropLive (i : Slot) (state : ApClientState) : ApM Unit :=
  if state ≠ .free then dropClient i else pure ()

/-- The loop of `wifi_ap_stop` over the slots. -/
def clearClients : List Slot → ApM Unit
  | [] => pure ()
  | i :: rest => do
    let state ← clientState i
    dropLive i state
    clearClients rest

/-- From the mutex on. -/
def clearSession : ApM Bool := do
  sessionTake
  clearClients (List.finRange apClientsMax)
  sessionGive
  let vif ← readVif
  apmStop vif

def wifiApStop : ApM Bool := do
  let running ← readRunning
  if running then do
    setRunning false
    act .apLinkDown
    clearSession
  else return false

/-! ## The LMAC and the shared state -/

/-- A station in the LMAC. -/
structure Station where
  mac : Octets 6
  aid : UInt16
  deriving DecidableEq

/-- The table, the stations in the LMAC, and the addresses that were taken out of the table. -/
structure Core where
  table : ApClients
  stations : UInt8 → Option Station
  removed : List (Octets 6)

def Core.remove (s : Core) (i : Slot) : Core :=
  { s with table := apClientsRemove s.table i, removed := (s.table i).mac :: s.removed }

def Core.set (s : Core) (i : Slot) (staIdx : UInt8) (state : ApClientState) : Core :=
  { s with table := Function.update s.table i ⟨(s.table i).mac, staIdx, state⟩ }

def Core.add (s : Core) (mac : Octets 6) : Core := { s with table := (apClientsAdd s.table mac).2 }

def Core.delStation (s : Core) (staIdx : UInt8) : Core :=
  { s with stations := Function.update s.stations staIdx none }

/-- `ME_STA_ADD` adds one station with a fresh index or does nothing, and `ME_STA_DEL` removes the
named one. What the other requests answer is open, and so is what the interface's variables hold:
they are copied byte by byte while others read them. -/
def lmac : Device ApCmd ApCmd.Answer Core
  | .lockedAdd mac, s, added, s' =>
    s' = s.add mac ∧ added = (apClientsAdd s.table mac).1
  | .lockedRemove i, s, _, s' => s' = s.remove i
  | .lockedSet i staIdx state, s, _, s' => s' = s.set i staIdx state
  | .lockedClear, s, _, s' => s' = { s with table := apClientsClear }
  | .clientsFind mac, s, found, s' => s' = s ∧ found = apClientsFind s.table mac
  | .clientState i, s, state, s' => s' = s ∧ state = (s.table i).state
  | .clientStaIdx i, s, staIdx, s' => s' = s ∧ staIdx = (s.table i).staIdx
  | .meStaAdd _ mac aid, s, (added : Option UInt8), s' =>
    match added with
    | none => s' = s
    | some staIdx => staIdx ≠ apNoSta ∧ s.stations staIdx = none ∧
        s' = { s with stations := Function.update s.stations staIdx (some ⟨mac, aid⟩) }
  | .meStaDel staIdx, s, _, s' => s' = s.delStation staIdx
  | _, s, _, s' => s' = s

/-- With the flag and the holder of the session's mutex, one of the actors `α`. -/
structure Shared (α : Type) where
  core : Core
  running : Bool
  session : Option α

/-- The commands of the actor `a`. Taking the mutex waits until it is free. -/
def shared {α : Type} (a : α) : Device ApCmd ApCmd.Answer (Shared α)
  | .running, s, on, s' => s' = s ∧ on = s.running
  | .setRunning on, s, _, s' => s' = { s with running := on }
  | .sessionTake, s, _, s' => s.session = none ∧ s' = { s with session := some a }
  | .sessionGive, s, _, s' => s' = { s with session := none }
  | c, s, r, s' => ∃ core, lmac c s.core r core ∧ s' = { s with core := core }

end BekenCam.Ap
