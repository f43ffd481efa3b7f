import BekenCam.CommandProgram
import BekenCam.Wpa2Aes
import BekenCam.Wpa2Eapol
import BekenCam.Wpa2Kdf

/-!
# The station's side of the handshake

The state machine of the supplicant. Frames come in one at a time, and everything it wants
done is a command to the `ops`, whose answers are not known to it beforehand.
-/
namespace BekenCam.Wpa2

/-! ## The ops -/

inductive Op
  | send (eapol : List UInt8)
  | installPtk (tk : Octets 16)
  | installGtk (keyId : UInt8) (gtk : Octets 16)
  | openPort
  | random (len : ℕ)
  deriving DecidableEq

/-- `random` fills a buffer, every other op says whether it worked. -/
@[reducible] def Op.Answer : Op → Type
  | random len => Octets len
  | _ => Bool

abbrev OpsM (α : Type) := Prog Op Op.Answer α

namespace Ops

def send (eapol : List UInt8) : OpsM Bool := Prog.command (Op.send eapol)
def installPtk (tk : Octets 16) : OpsM Bool := Prog.command (Op.installPtk tk)
def installGtk (keyId : UInt8) (gtk : Octets 16) : OpsM Bool :=
  Prog.command (Op.installGtk keyId gtk)
def openPort : OpsM Bool := Prog.command Op.openPort
def random (len : ℕ) : OpsM (Octets len) := Prog.command (Op.random len)

end Ops

/-! ## The state -/

@[simp] abbrev wpa2EapolMax : ℕ := 512
@[simp] abbrev keyDataMax : ℕ := 192

inductive Wpa2Result
  | ignored
  | progress
  | done
  | failed
  deriving DecidableEq, Repr

inductive Wpa2State
  | idle
  | gotMsg1
  | established
  deriving DecidableEq, Repr

structure Wpa2Sm where
  pmk : Octets 32
  aa : Octets 6
  spa : Octets 6
  ptk : Octets 48
  anonce : Octets 32
  snonce : Octets 32
  replay : Octets 8
  haveReplay : Bool
  gtk : Octets 16
  gtkId : UInt8
  gtkInstalled : Bool
  ptkInstalled : Bool
  state : Wpa2State
  deriving DecidableEq

/-- The parts of a PTK. -/
def kck (ptk : Octets 48) : Octets 16 := ptk.part 0 16 (by decide)
def kek (ptk : Octets 48) : Octets 16 := ptk.part 16 16 (by decide)
def tk (ptk : Octets 48) : Octets 16 := ptk.part 32 16 (by decide)

def wpa2SmInit (pmk : Octets 32) (aa spa : Octets 6) : Wpa2Sm where
  pmk := pmk
  aa := aa
  spa := spa
  ptk := Octets.zero 48
  anonce := Octets.zero 32
  snonce := Octets.zero 32
  replay := Octets.zero 8
  haveReplay := false
  gtk := Octets.zero 16
  gtkId := 0
  gtkInstalled := false
  ptkInstalled := false
  state := .idle

/-! ## Steps of the handlers -/

def sendKey (sm : Wpa2Sm) (keyInfo : UInt16) (replay : Octets 8) (nonce : Option (Octets 32))
    (keyData : List UInt8) : OpsM Bool :=
  match wpa2EapolBuild wpa2EapolMax keyInfo 0 replay (nonce.getD (Octets.zero 32)) keyData
      (some (kck sm.ptk)) with
  | none => pure false
  | some buf => Ops.send buf

/-- The counter must grow from one authenticated message to the next. -/
def replayOk (sm : Wpa2Sm) (replay : Octets 8) : Bool :=
  !sm.haveReplay || memcmp replay.val sm.replay.val = .gt

def noteReplay (sm : Wpa2Sm) (replay : Octets 8) : Wpa2Sm :=
  { sm with replay := replay, haveReplay := true }

/-- The key id and the GTK in the wrapped key data. -/
def unwrapGtk (kek : Octets 16) (k : EapolKey) : Option (UInt8 × Octets 16) :=
  let len := k.keyData.length
  if k.keyInfo &&& keyInfoEncrypted = 0 then none
  else if len < 24 ∨ len % 8 ≠ 0 ∨ len - 8 > keyDataMax then none
  else
    match aesKeyUnwrap kek.val k.keyData with
    | none => none
    | some plain => wpa2FindGtk plain

def installGtkOnce (sm : Wpa2Sm) (id : UInt8) (gtk : Octets 16) : OpsM (Bool × Wpa2Sm) :=
  if sm.gtkInstalled ∧ sm.gtkId = id ∧ sm.gtk = gtk then pure (true, sm)
  else do
    let ok ← Ops.installGtk id gtk
    if !ok then pure (false, sm)
    else pure (true, { sm with gtk := gtk, gtkId := id, gtkInstalled := true })

/-- The part of `on_msg3` that installs the pairwise key. -/
def installPtkOnce (sm : Wpa2Sm) : OpsM (Bool × Wpa2Sm) :=
  if sm.ptkInstalled then pure (true, sm)
  else do
    let ok ← Ops.installPtk (tk sm.ptk)
    if !ok then pure (false, sm)
    else pure (true, { sm with ptkInstalled := true })

/-- The part of `on_msg1` that takes a new ANonce. -/
def takeAnonce (sm : Wpa2Sm) (anonce : Octets 32) : OpsM Wpa2Sm :=
  if sm.state ≠ .gotMsg1 ∨ sm.anonce ≠ anonce then do
    let snonce ← Ops.random 32
    pure { sm with
      anonce := anonce
      snonce := snonce
      ptk := wpa2Ptk sm.pmk sm.aa sm.spa anonce snonce }
  else pure sm

/-! ## The handlers -/

def onMsg1 (sm : Wpa2Sm) (k : EapolKey) : OpsM (Wpa2Result × Wpa2Sm) :=
  if sm.ptkInstalled then pure (.ignored, sm)
  else do
    let sm ← takeAnonce sm k.nonce
    let sent ← sendKey sm keyInfoMsg2 k.replay (some sm.snonce) wpa2RsnIe
    if !sent then pure (.failed, sm)
    else pure (.progress, { sm with state := .gotMsg1 })

def onMsg3 (sm : Wpa2Sm) (k : EapolKey) (frame : List UInt8) : OpsM (Wpa2Result × Wpa2Sm) :=
  if sm.state = .idle then pure (.ignored, sm)
  else if !wpa2EapolMicOk (kck sm.ptk) frame k.frameLen then pure (.ignored, sm)
  else if !replayOk sm k.replay then pure (.ignored, sm)
  else if k.nonce ≠ sm.anonce ∨ k.keyLength ≠ 16 then pure (.ignored, sm)
  else
    match unwrapGtk (kek sm.ptk) k with
    | none => pure (.failed, sm)
    | some (gtkId, gtk) => do
      let sm := noteReplay sm k.replay
      let sent ← sendKey sm keyInfoMsg4 k.replay none []
      if !sent then pure (.failed, sm)
      else do
        let (ok, sm) ← installPtkOnce sm
        if !ok then pure (.failed, sm)
        else do
          let (ok, sm) ← installGtkOnce sm gtkId gtk
          if !ok then pure (.failed, sm)
          else if sm.state = .established then pure (.progress, sm)
          else do
            let ok ← Ops.openPort
            if !ok then pure (.failed, sm)
            else pure (.done, { sm with state := .established })

def onGroup1 (sm : Wpa2Sm) (k : EapolKey) (frame : List UInt8) : OpsM (Wpa2Result × Wpa2Sm) :=
  if sm.state ≠ .established then pure (.ignored, sm)
  else if !wpa2EapolMicOk (kck sm.ptk) frame k.frameLen then pure (.ignored, sm)
  else if !replayOk sm k.replay then pure (.ignored, sm)
  else
    match unwrapGtk (kek sm.ptk) k with
    | none => pure (.failed, sm)
    | some (gtkId, gtk) => do
      let sm := noteReplay sm k.replay
      let sent ← sendKey sm keyInfoGroupMsg2 k.replay none []
      if !sent then pure (.failed, sm)
      else do
        let (ok, sm) ← installGtkOnce sm gtkId gtk
        if !ok then pure (.failed, sm)
        else pure (.progress, sm)

def wpa2SmRx (sm : Wpa2Sm) (frame : List UInt8) : OpsM (Wpa2Result × Wpa2Sm) :=
  if frame.length > wpa2EapolMax then pure (.ignored, sm)
  else
    match wpa2EapolParse frame with
    | none => pure (.ignored, sm)
    | some k =>
      if k.keyInfo &&& keyInfoAck = 0 ∨ k.keyInfo &&& keyInfoVersionMask ≠ 2 then
        pure (.ignored, sm)
      else if k.keyInfo &&& keyInfoPairwise ≠ 0 then
        if k.keyInfo &&& keyInfoMic = 0 ∧ k.keyInfo &&& keyInfoInstall = 0 then onMsg1 sm k
        else if k.keyInfo &&& keyInfoMic ≠ 0 ∧ k.keyInfo &&& keyInfoInstall ≠ 0 then
          onMsg3 sm k frame
        else pure (.ignored, sm)
      else if k.keyInfo &&& keyInfoMic ≠ 0 ∧ k.keyInfo &&& keyInfoSecure ≠ 0 then
        onGroup1 sm k frame
      else pure (.ignored, sm)

end BekenCam.Wpa2
