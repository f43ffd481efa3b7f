import BekenCam.DeviceRuns
import BekenCam.Wpa2Sm

/-!
# The supplicant's task

One task takes messages from a queue: arm for a new association, an EAPOL frame, disarm, abort.
It owns the state machine and carries out its ops with requests to the LMAC. Log lines, the
queue and the copies of the messages are left out.
-/
namespace BekenCam.Wpa2

/-! ## What the task asks for -/

/-- The variable that `hw_key_idx` points to in `rw_msg_send_mm_key_add`. -/
inductive HwKeyIdx
  | sPtkSlot
  | slot
  deriving DecidableEq, Repr

inductive StaCmd
  | wifiNetIface
  | apId (vif : UInt8)
  | wifiNetSendRaw (vif : UInt8) (frame : List UInt8)
  | mmKeyAdd (hwKeyIdx : HwKeyIdx) (vif sta keyIdx : UInt8) (key : Octets 16)
  | mmKeyDel (hwKeyIdx : UInt8)
  | meSetControlPort (sta : UInt8) (isOpen : Bool)
  | trngEnable
  | getRandomBytes (len : ℕ)
  | connectLeave (vif : UInt8)
  | wpa2ResultHandler (ok : Bool)
  deriving DecidableEq

/-- The interface answers with its address if it is there, a request with whether it worked,
and a key that was added with its slot. -/
@[reducible] def StaCmd.Answer : StaCmd → Type
  | wifiNetIface => Option (Octets 6)
  | apId _ => UInt8
  | wifiNetSendRaw _ _ => Bool
  | mmKeyAdd _ _ _ _ _ => Option UInt8
  | mmKeyDel _ => Bool
  | meSetControlPort _ _ => Bool
  | trngEnable => Unit
  | getRandomBytes len => Octets len
  | connectLeave _ => Bool
  | wpa2ResultHandler _ => Unit

abbrev StaM (α : Type) := Prog StaCmd StaCmd.Answer α

def wifiNetIface : StaM (Option (Octets 6)) := Prog.command StaCmd.wifiNetIface
def apId (vif : UInt8) : StaM UInt8 := Prog.command (StaCmd.apId vif)
def wifiNetSendRaw (vif : UInt8) (frame : List UInt8) : StaM Bool :=
  Prog.command (StaCmd.wifiNetSendRaw vif frame)
def trngEnable : StaM Unit := Prog.command StaCmd.trngEnable
def getRandomBytes (len : ℕ) : StaM (Octets len) := Prog.command (StaCmd.getRandomBytes len)
def connectLeave (vif : UInt8) : StaM Bool := Prog.command (StaCmd.connectLeave vif)
def wpa2ResultHandler (ok : Bool) : StaM Unit := Prog.command (StaCmd.wpa2ResultHandler ok)

/-! ## Requests to the LMAC -/

@[simp] abbrev nxVirtDevMax : UInt8 := 2

/-- The argument check of `rw_msg_send_mm_key_add`. -/
def keyAddRefused (vif sta keyIdx : UInt8) : Bool :=
  let group := sta = 0xFF
  vif ≥ nxVirtDevMax ∨ (if group then keyIdx > 3 else sta > 3 ∨ keyIdx ≠ 0)

/-- No answer, an error status and a refused allocation all count as a failure. -/
def rwMsgSendMmKeyAdd (hwKeyIdx : HwKeyIdx) (vif sta keyIdx : UInt8) (key : Octets 16) :
    StaM (Option UInt8) :=
  if keyAddRefused vif sta keyIdx then pure none
  else Prog.command (StaCmd.mmKeyAdd hwKeyIdx vif sta keyIdx key)

def rwMsgSendMmKeyDel (hwKeyIdx : UInt8) : StaM Bool := Prog.command (StaCmd.mmKeyDel hwKeyIdx)

/-- The caller's test in front of the request; its result is not looked at. -/
def delKeyIf (c : Prop) [Decidable c] (slot : UInt8) : StaM Bool :=
  if c then rwMsgSendMmKeyDel slot else pure false

def rwMsgSendMeSetControlPort (sta : UInt8) (isOpen : Bool) : StaM Bool :=
  Prog.command (StaCmd.meSetControlPort sta isOpen)

/-! ## The task's state -/

@[simp] abbrev noSlot : UInt8 := 0xFF

structure Sta where
  sm : Wpa2Sm
  active : Bool
  pending : Bool
  vif : UInt8
  aa : Octets 6
  own : Octets 6
  ptkSlot : UInt8
  gtkSlot : UInt8

/-- Static variables before the first message. -/
def Sta.start : Sta where
  sm := wpa2SmInit (Octets.zero 32) (Octets.zero 6) (Octets.zero 6)
  active := false
  pending := false
  vif := 0
  aa := Octets.zero 6
  own := Octets.zero 6
  ptkSlot := noSlot
  gtkSlot := noSlot

def dropKeys (st : Sta) : StaM Sta := do
  let _ ← delKeyIf (st.ptkSlot ≠ noSlot) st.ptkSlot
  let _ ← delKeyIf (st.gtkSlot ≠ noSlot) st.gtkSlot
  return { st with ptkSlot := noSlot, gtkSlot := noSlot }

/-! ## Ops -/

def apIndex (st : Sta) : StaM UInt8 := apId st.vif

def opSend (st : Sta) (eapol : List UInt8) : StaM Bool :=
  if eapol.length > wpa2EapolMax then pure false
  else wifiNetSendRaw st.vif (st.aa.val ++ st.own.val ++ [0x88, 0x8E] ++ eapol)

def opInstallPtk (st : Sta) (tk : Octets 16) : StaM (Bool × Sta) := do
  let ap ← apIndex st
  let added ← rwMsgSendMmKeyAdd .sPtkSlot st.vif ap 0 tk
  match added with
  | none => return (false, st)
  | some slot => return (true, { st with ptkSlot := slot })

def opInstallGtk (st : Sta) (keyId : UInt8) (gtk : Octets 16) : StaM (Bool × Sta) := do
  let oldSlot := st.gtkSlot
  let added ← rwMsgSendMmKeyAdd .slot st.vif 0xFF keyId gtk
  match added with
  | none => return (false, st)
  | some slot => do
    let _ ← delKeyIf (oldSlot ≠ noSlot ∧ oldSlot ≠ slot) oldSlot
    return (true, { st with gtkSlot := slot })

def opOpenPort (st : Sta) : StaM Bool := do
  let ap ← apIndex st
  rwMsgSendMeSetControlPort ap true

def opRandom (len : ℕ) : StaM (Octets len) := do
  trngEnable
  getRandomBytes len

/-- `k_ops`. -/
def kOps : (op : Op) → Sta → StaM (op.Answer × Sta)
  | .send eapol, st => do
    let ok ← opSend st eapol
    return (ok, st)
  | .installPtk tk, st => opInstallPtk st tk
  | .installGtk keyId gtk, st => opInstallGtk st keyId gtk
  | .openPort, st => do
    let ok ← opOpenPort st
    return (ok, st)
  | .random len, st => do
    let out ← opRandom len
    return (out, st)

/-! ## The task -/

inductive Msg
  | arm (vif : UInt8) (pmk : Octets 32) (bssid : Octets 6)
  | eapol (vif : UInt8) (frame : List UInt8)
  | disarm
  | abort
  deriving DecidableEq

/-- Leaves the BSS, then tells the session. -/
def fail (st : Sta) : StaM Sta := do
  let st := { st with active := false, pending := false }
  let _ ← connectLeave st.vif
  wpa2ResultHandler false
  return st

/-- What follows the verdict of the state machine on a frame. -/
def concludeRx (r : Wpa2Result) (st : Sta) : StaM Sta :=
  if r = .done then do
    let st := { st with pending := false }
    wpa2ResultHandler true
    return st
  else if r = .failed then fail st
  else return st

def handle (st : Sta) : Msg → StaM Sta
  | .arm vif pmk bssid => do
    let iface ← wifiNetIface
    match iface with
    | none => return st
    | some hwaddr =>
      let st ← dropKeys st
      return { st with
        sm := wpa2SmInit pmk bssid hwaddr
        active := true
        pending := true
        vif := vif
        aa := bssid
        own := hwaddr }
  | .eapol _ frame =>
    if !st.active ∨ frame.length < 14 + 4 then return st
    else if slice frame 6 6 ≠ st.aa.val then return st
    else do
      let ((r, sm), st) ← Prog.interpret kOps (wpa2SmRx st.sm (frame.drop 14)) st
      concludeRx r { st with sm := sm }
  | .disarm => do
    let st := { st with active := false, pending := false }
    dropKeys st
  | .abort => if st.active ∧ st.pending then fail st else return st

end BekenCam.Wpa2
