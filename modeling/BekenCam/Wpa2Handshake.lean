import BekenCam.Wpa2Cipher
import BekenCam.Wpa2Safety

/-!
# The handshake with an authenticator

What an authenticator that follows the standard sends and checks, and what the station does
with it. The authenticator derives its PTK from the SNonce it reads in message 2.
-/
namespace BekenCam.Wpa2

open Prog

/-! ## What the authenticator sends -/

/-- Message 1 as it is received: version 2, pairwise, ACK, without MIC and install. Nothing in
it is authenticated, so everything else is free. -/
structure Message1 (anonce : Octets 32) where
  frame : KeyFrame
  mic : Octets 16
  linkPadding : List UInt8
  info : frame.keyInfo &&& 0x01CF = 0x008A
  nonce : frame.nonce = anonce
  fits : frame.size + linkPadding.length ≤ 512

def Message1.bytes {anonce : Octets 32} (m : Message1 anonce) : List UInt8 :=
  m.frame.bytes m.mic.val ++ m.linkPadding

/-- The elements of the key data, one of them the GTK, and the padding behind them. -/
structure KeyItems (keyId : UInt8) (gtk : Octets 16) where
  front : List Element
  back : List Element
  flags : UInt8
  reserved : UInt8
  padding : List UInt8
  key_id : flags &&& 0x03 = keyId
  no_padding : ∀ e ∈ front ++ back, ¬e.IsPadding
  one_gtk : ∀ e ∈ front ++ back, ¬e.IsGtk
  padding_shape : padding = [] ∨ ∃ n, padding = 0xDD :: List.replicate n 0

def KeyItems.plain {keyId : UInt8} {gtk : Octets 16} (items : KeyItems keyId gtk) : List UInt8 :=
  items.front.flatMap Element.bytes ++ ((Element.gtk items.flags items.reserved gtk).bytes ++
    (items.back.flatMap Element.bytes ++ items.padding))

/-- Message 3 as it is received: version 2, pairwise, install, ACK, MIC, secure, encrypted. -/
structure Message3 (ptk : Octets 48) (anonce : Octets 32) (keyId : UInt8) (gtk : Octets 16) where
  frame : KeyFrame
  items : KeyItems keyId gtk
  linkPadding : List UInt8
  info : frame.keyInfo &&& 0x13CF = 0x13CA
  keyLength : frame.keyLength = 16
  nonce : frame.nonce = anonce
  keyData : frame.keyData = Standard.aesKeyWrap (kek ptk).val items.plain
  aligned : items.plain.length % 8 = 0
  small : items.plain.length ≤ 192
  fits : frame.size + linkPadding.length ≤ 512

def Message3.bytes {ptk : Octets 48} {anonce : Octets 32} {keyId : UInt8} {gtk : Octets 16}
    (m : Message3 ptk anonce keyId gtk) : List UInt8 :=
  m.frame.signed (kck ptk) ++ m.linkPadding

/-! ## How the station reads them -/

/-- Up to the largest wrapped key of a frame. -/
theorem aesKeyWrap_kek (ptk : Octets 48) {plain : List UInt8} (hsize : plain.length % 8 = 0)
    (hsmall : plain.length ≤ 192) :
    Standard.aesKeyWrap (kek ptk).val plain = aesKeyWrap (kek ptk).val plain :=
  (aesKeyWrap_eq (kek ptk).property hsize (by omega)).symm

theorem Message3.wrapped {ptk : Octets 48} {anonce : Octets 32} {keyId : UInt8} {gtk : Octets 16}
    (m : Message3 ptk anonce keyId gtk) :
    m.frame.keyData = aesKeyWrap (kek ptk).val m.items.plain := by
  rw [m.keyData, aesKeyWrap_kek ptk m.aligned m.small]

/-- A single bit of a masked field. -/
theorem and_of_mask {v mask value : UInt16} (h : v &&& mask = value) (bit : UInt16)
    (hbit : mask &&& bit = bit) : v &&& bit = value &&& bit := by
  rw [← h, UInt16.and_assoc, hbit]

theorem frameKind_message1 {anonce : Octets 32} (m : Message1 anonce) :
    frameKind m.bytes = .msg1 m.frame.fields := by
  have hbits := and_of_mask m.info
  have hinfo : m.frame.fields.keyInfo = m.frame.keyInfo := rfl
  rw [Message1.bytes, frameKind_bytes m.frame m.mic.property m.fits, keyKind, hinfo,
    hbits keyInfoAck (by decide), hbits keyInfoVersionMask (by decide),
    hbits keyInfoPairwise (by decide), hbits keyInfoMic (by decide),
    hbits keyInfoInstall (by decide)]
  rfl

theorem frameKind_message3 {ptk : Octets 48} {anonce : Octets 32} {keyId : UInt8}
    {gtk : Octets 16} (m : Message3 ptk anonce keyId gtk) :
    frameKind m.bytes = .msg3 m.frame.fields := by
  have hbits := and_of_mask m.info
  have hinfo : m.frame.fields.keyInfo = m.frame.keyInfo := rfl
  rw [Message3.bytes, KeyFrame.signed, frameKind_bytes m.frame (m.frame.length_mic _) m.fits,
    keyKind, hinfo, hbits keyInfoAck (by decide), hbits keyInfoVersionMask (by decide),
    hbits keyInfoPairwise (by decide), hbits keyInfoMic (by decide),
    hbits keyInfoInstall (by decide)]
  rfl

theorem wpa2FindGtk_plain {keyId : UInt8} {gtk : Octets 16} (items : KeyItems keyId gtk) :
    wpa2FindGtk items.plain = some (keyId, gtk) := by
  rw [KeyItems.plain, wpa2FindGtk_elements fun e he =>
    ⟨items.no_padding e (by simp [he]), items.one_gtk e (by simp [he])⟩, wpa2FindGtk_gtk,
    items.key_id]

theorem KeyItems.length_plain {keyId : UInt8} {gtk : Octets 16} (items : KeyItems keyId gtk) :
    24 ≤ items.plain.length := by
  have hgtk : (Element.gtk items.flags items.reserved gtk).bytes.length = 24 := by
    simp [Element.bytes, Element.gtk, gtkKde, gtk.property]
  simp only [KeyItems.plain, List.length_append, hgtk]
  omega

/-- The station finds the GTK of the authenticator. -/
theorem unwrapGtk_message3 {ptk : Octets 48} {anonce : Octets 32} {keyId : UInt8}
    {gtk : Octets 16} (m : Message3 ptk anonce keyId gtk) :
    unwrapGtk (kek ptk) m.frame.fields = some (keyId, gtk) := by
  have hmin := m.items.length_plain
  have hlen : m.frame.fields.keyData.length = m.items.plain.length + 8 := by
    rw [KeyFrame.fields, m.wrapped, length_aesKeyWrap _ m.aligned]
  have hbit := and_of_mask m.info keyInfoEncrypted (by decide)
  have hsmall : m.items.plain.length + 8 - 8 ≤ keyDataMax := m.small
  have haligned := m.aligned
  have hplain : aesKeyUnwrap (kek ptk).val m.frame.fields.keyData = some m.items.plain := by
    have h := aesKeyUnwrap_aesKeyWrap (kek ptk).val m.aligned (by omega)
    rwa [← m.wrapped] at h
  have hsize : ¬(m.items.plain.length + 8 < 24 ∨ (m.items.plain.length + 8) % 8 ≠ 0 ∨
      m.items.plain.length + 8 - 8 > keyDataMax) := by
    omega
  rw [unwrapGtk, hlen, hplain]
  dsimp only
  rw [if_neg (by rw [KeyFrame.fields, hbit]; decide), if_neg hsize, wpa2FindGtk_plain]

/-! ## Ops that succeed -/

def Event.Succeeded : Event → Prop
  | ⟨.send _, ok⟩ => ok = true
  | ⟨.installPtk _, ok⟩ => ok = true
  | ⟨.installGtk _ _, ok⟩ => ok = true
  | ⟨.openPort, ok⟩ => ok = true
  | ⟨.random _, _⟩ => True

variable {σ : Type}

def OpsSucceed (h : Handler Op Op.Answer σ) : Prop :=
  ∀ c s, Event.Succeeded ⟨c, (h c s).1⟩

theorem events_succeed {α : Type} {h : Handler Op Op.Answer σ} (hops : OpsSucceed h)
    (m : OpsM α) (s : σ) : ∀ e ∈ events h m s, Event.Succeeded e := by
  induction m generalizing s with
  | ret a => simp
  | call c k ih =>
    intro e he
    rcases List.mem_cons.mp he with rfl | hrest
    · exact hops c s
    · exact ih _ _ e hrest

/-- The frames that were sent, in order. -/
def Event.sent : Event → Option (List UInt8)
  | ⟨.send eapol, _⟩ => some eapol
  | _ => none

def sentFrames (es : List Event) : List (List UInt8) := es.filterMap Event.sent

/-- The random values that were drawn, in order. -/
def Event.drawn : Event → Option (List UInt8)
  | ⟨.random _, value⟩ => some value.val
  | _ => none

def randomDraws (es : List Event) : List (List UInt8) := es.filterMap Event.drawn

/-! ## Waiting for message 3 -/

/-- The state after message 2 has gone out. -/
def waiting (pmk : Octets 32) (aa spa : Octets 6) (anonce snonce : Octets 32) : Wpa2Sm :=
  { withAnonce (wpa2SmInit pmk aa spa) anonce snonce with state := .gotMsg1 }

section Message1

variable {h : Handler Op Op.Answer σ} (hops : OpsSucceed h)

include hops

/-- While the PTK is not in, a message 1 is answered and the station waits. -/
theorem smStep_message1 (sm : Wpa2Sm) (hfree : sm.ptkInstalled = false) {anonce : Octets 32}
    (m : Message1 anonce) (s : σ) :
    ∃ sm₁ fs, Performs (takeAnonce sm anonce) fs sm₁ ∧
      (smStep h sm m.bytes s).1 = ⟨sm, m.bytes,
        fs ++ [⟨.send (message2 sm₁ m.frame.replay), true⟩], .progress,
        { sm₁ with state := .gotMsg1 }⟩ := by
  have hperf := performs_events h (wpa2SmRx sm m.bytes) s
  have hsucc := events_succeed hops (wpa2SmRx sm m.bytes) s
  have hrx : wpa2SmRx sm m.bytes = onMsg1 sm m.frame.fields := by
    rw [wpa2SmRx_eq, frameKind_message1]
  have hstep : (smStep h sm m.bytes s).1 = ⟨sm, m.bytes, events h (wpa2SmRx sm m.bytes) s,
      (run h (wpa2SmRx sm m.bytes) s).1.1, (run h (wpa2SmRx sm m.bytes) s).1.2⟩ := rfl
  rw [hrx] at hperf
  obtain ⟨sm₁, fs, sent, htake, hes, hr, hsm⟩ := performs_onMsg1 hfree hperf
  have hnonce : m.frame.fields.nonce = anonce := m.nonce
  rw [hnonce] at htake
  rw [hrx, hes] at hsucc
  obtain rfl : sent = true := hsucc _ (List.mem_append_right _ (List.mem_singleton_self _))
  refine ⟨sm₁, fs, htake, ?_⟩
  rw [hstep, hrx, hes, hr, hsm]
  rfl

variable (pmk : Octets 32) (aa spa : Octets 6)

/-- The first message 1 is answered with the first random bytes. -/
theorem smStep_first (anonce : Octets 32) (m : Message1 anonce) (s : σ) :
    let snonce : Octets 32 := (h (.random 32) s).1
    (smStep h (wpa2SmInit pmk aa spa) m.bytes s).1 =
      ⟨wpa2SmInit pmk aa spa, m.bytes, [⟨.random 32, snonce⟩,
        ⟨.send (message2 (waiting pmk aa spa anonce snonce) m.frame.replay), true⟩], .progress,
        waiting pmk aa spa anonce snonce⟩ := by
  obtain ⟨sm₁, fs, htake, hstep⟩ := smStep_message1 hops (wpa2SmInit pmk aa spa) rfl m s
  rcases performs_takeAnonce htake with ⟨hgot, -⟩ | ⟨-, snonce, rfl, rfl⟩
  · exact absurd hgot (by simp [wpa2SmInit])
  · have hevents : ∃ fs, (smStep h (wpa2SmInit pmk aa spa) m.bytes s).1.events =
        ⟨.random 32, (h (.random 32) s).1⟩ :: fs := by
      have hrx : wpa2SmRx (wpa2SmInit pmk aa spa) m.bytes =
          onMsg1 (wpa2SmInit pmk aa spa) m.frame.fields := by
        rw [wpa2SmRx_eq, frameKind_message1]
      change ∃ fs, events h (wpa2SmRx (wpa2SmInit pmk aa spa) m.bytes) s = _
      rw [hrx]
      exact ⟨_, rfl⟩
    obtain ⟨fs, hfs⟩ := hevents
    rw [hstep] at hfs
    obtain ⟨hhead, -⟩ := List.cons.inj hfs
    obtain rfl : snonce = (h (.random 32) s).1 := by simpa using hhead
    exact hstep

/-- A message 1 for the same ANonce is answered from the values at hand. -/
theorem smStep_repeated (anonce snonce : Octets 32) (m : Message1 anonce) (s : σ) :
    (smStep h (waiting pmk aa spa anonce snonce) m.bytes s).1 =
      ⟨waiting pmk aa spa anonce snonce, m.bytes,
        [⟨.send (message2 (waiting pmk aa spa anonce snonce) m.frame.replay), true⟩], .progress,
        waiting pmk aa spa anonce snonce⟩ := by
  obtain ⟨sm₁, fs, htake, hstep⟩ := smStep_message1 hops (waiting pmk aa spa anonce snonce) rfl m s
  rcases performs_takeAnonce htake with ⟨-, -, rfl, rfl⟩ | ⟨hnew, -⟩
  · exact hstep
  · exact absurd hnew (by simp [waiting, withAnonce])

/-- A message 1 for another ANonce takes its place, with new random bytes. -/
theorem smStep_other {anonce other : Octets 32} (hne : anonce ≠ other) (snonce : Octets 32)
    (m : Message1 other) (s : σ) :
    ∃ snonce', (smStep h (waiting pmk aa spa anonce snonce) m.bytes s).1 =
      ⟨waiting pmk aa spa anonce snonce, m.bytes, [⟨.random 32, snonce'⟩,
        ⟨.send (message2 (waiting pmk aa spa other snonce') m.frame.replay), true⟩], .progress,
        waiting pmk aa spa other snonce'⟩ := by
  obtain ⟨sm₁, fs, htake, hstep⟩ := smStep_message1 hops (waiting pmk aa spa anonce snonce) rfl m s
  rcases performs_takeAnonce htake with ⟨-, hsame, -⟩ | ⟨-, snonce', rfl, rfl⟩
  · exact absurd hsame hne
  · exact ⟨snonce', hstep⟩

end Message1

/-! ## Message 3 -/

/-- An authentic message 3 runs through to the end when no key is in yet and the ops
succeed. -/
theorem performs_onMsg3_done {sm sm' : Wpa2Sm} {k : EapolKey} {frame : List UInt8}
    {es : List Event} {r : Wpa2Result} {keyId : UInt8} {gtk : Octets 16}
    (hstate : sm.state = .gotMsg1) (hauth : Authentic sm k frame) (hnonce : k.nonce = sm.anonce)
    (hlen : k.keyLength = 16) (hfound : unwrapGtk (kek sm.ptk) k = some (keyId, gtk))
    (hptk : sm.ptkInstalled = false) (hgtk : sm.gtkInstalled = false)
    (h : Performs (onMsg3 sm k frame) es (r, sm')) (hsucc : ∀ e ∈ es, Event.Succeeded e) :
    r = .done ∧ es = [⟨.send (confirmation sm keyInfoMsg4 k.replay), true⟩,
      ⟨.installPtk (tk sm.ptk), true⟩, ⟨.installGtk keyId gtk, true⟩, ⟨.openPort, true⟩] := by
  rw [onMsg3, if_neg (by simp [hstate]), if_neg (by simp [hauth.1]), if_neg (by simp [hauth.2]),
    if_neg (by simp [hnonce, hlen]), hfound] at h
  dsimp only at h
  rw [sendKey_confirmation] at h
  obtain ⟨sent, fs, rfl, h₁⟩ := performs_command h
  obtain rfl : sent = true := hsucc _ (.head _)
  obtain ⟨⟨ok, sm₁⟩, fs, gs, rfl, hinstall, h₂⟩ := performs_bind h₁
  rcases performs_installPtkOnce hinstall with ⟨hin, -⟩ | ⟨-, rfl, rfl⟩
  · exact absurd hin (by simp [noteReplay, hptk])
  obtain rfl : ok = true := hsucc _ (.tail _ (.head _))
  obtain ⟨⟨ok, sm₂⟩, fs, gs, rfl, hinstall, h₃⟩ := performs_bind h₂
  rcases performs_installGtkOnce hinstall with ⟨hin, -⟩ | ⟨-, rfl, rfl⟩
  · exact absurd hin.1 (by simp [noteReplay, hgtk])
  obtain rfl : ok = true := hsucc _ (.tail _ (.tail _ (.head _)))
  simp only [Bool.not_true, Bool.false_eq_true, if_false, if_true] at h₃
  rw [if_neg (by simp [noteReplay, hstate])] at h₃
  obtain ⟨ok, fs, rfl, h₄⟩ := performs_command h₃
  obtain rfl : ok = true := hsucc _ (.tail _ (.tail _ (.tail _ (.head _))))
  obtain ⟨rfl, heq⟩ := performs_ret h₄
  obtain ⟨rfl, rfl⟩ := Prod.mk.inj heq
  exact ⟨rfl, rfl⟩

theorem waiting_ptk (pmk : Octets 32) (aa spa : Octets 6) (anonce snonce : Octets 32) :
    (waiting pmk aa spa anonce snonce).ptk = ieeePtk pmk aa spa anonce snonce :=
  wpa2Ptk_eq_ieeePtk pmk aa spa anonce snonce

section Message3

variable {h : Handler Op Op.Answer σ} {pmk : Octets 32} {aa spa : Octets 6}

theorem smStep_message3 (hops : OpsSucceed h) {anonce snonce : Octets 32} {keyId : UInt8}
    {gtk : Octets 16} (m : Message3 (ieeePtk pmk aa spa anonce snonce) anonce keyId gtk) (s : σ) :
    (smStep h (waiting pmk aa spa anonce snonce) m.bytes s).1.result = .done ∧
      (smStep h (waiting pmk aa spa anonce snonce) m.bytes s).1.events =
        [⟨.send (confirmation (waiting pmk aa spa anonce snonce) keyInfoMsg4 m.frame.replay), true⟩,
          ⟨.installPtk (tk (ieeePtk pmk aa spa anonce snonce)), true⟩,
          ⟨.installGtk keyId gtk, true⟩, ⟨.openPort, true⟩] := by
  set sm := waiting pmk aa spa anonce snonce with hsm
  have hptk : sm.ptk = ieeePtk pmk aa spa anonce snonce := waiting_ptk pmk aa spa anonce snonce
  have hrx : wpa2SmRx sm m.bytes = onMsg3 sm m.frame.fields m.bytes := by
    rw [wpa2SmRx_eq, frameKind_message3]
  have hperf := performs_events h (wpa2SmRx sm m.bytes) s
  have hsucc := events_succeed hops (wpa2SmRx sm m.bytes) s
  have hmic : wpa2EapolMicOk (kck sm.ptk) m.bytes m.frame.fields.frameLen = true := by
    rw [hptk]
    exact wpa2EapolMicOk_signed m.frame _ m.linkPadding
  have hfound : unwrapGtk (kek sm.ptk) m.frame.fields = some (keyId, gtk) := by
    rw [hptk]
    exact unwrapGtk_message3 m
  rw [hrx] at hperf
  have hdone := performs_onMsg3_done (show sm.state = .gotMsg1 from rfl) ⟨hmic, rfl⟩ m.nonce
    m.keyLength hfound rfl rfl hperf (by rwa [hrx] at hsucc)
  rw [hptk, ← hrx] at hdone
  exact hdone

theorem onMsg3_ignored {sm : Wpa2Sm} {k : EapolKey} (hnonce : k.nonce ≠ sm.anonce)
    (frame : List UInt8) : onMsg3 sm k frame = pure (.ignored, sm) := by
  have hother : k.nonce ≠ sm.anonce ∨ k.keyLength ≠ 16 := .inl hnonce
  rw [onMsg3, if_pos hother, ite_self, ite_self, ite_self]

/-- A message 3 for an ANonce that the station no longer holds is ignored. -/
theorem smStep_message3_stale {ptk : Octets 48} {anonce other snonce : Octets 32}
    (hne : anonce ≠ other) {keyId : UInt8} {gtk : Octets 16} (m : Message3 ptk anonce keyId gtk)
    (s : σ) : (smStep h (waiting pmk aa spa other snonce) m.bytes s).1.result = .ignored := by
  set sm := waiting pmk aa spa other snonce with hsm
  have hrx : wpa2SmRx sm m.bytes = onMsg3 sm m.frame.fields m.bytes := by
    rw [wpa2SmRx_eq, frameKind_message3]
  have hnonce : m.frame.fields.nonce ≠ sm.anonce := by
    change m.frame.nonce ≠ other
    rwa [m.nonce]
  have hstep : (smStep h sm m.bytes s).1.result = (run h (wpa2SmRx sm m.bytes) s).1.1 := rfl
  rw [hstep, hrx, onMsg3_ignored hnonce]
  rfl

end Message3

/-! ## What the authenticator reads -/

/-- The nonce field of a frame. -/
def nonceField (frame : List UInt8) : List UInt8 := slice frame 17 32

theorem nonceField_bytes (f : KeyFrame) (m pad : List UInt8) :
    nonceField (f.bytes m ++ pad) = f.nonce.val := slice_nonce f m pad

theorem nonceField_message1 {anonce : Octets 32} (m : Message1 anonce) :
    nonceField m.bytes = anonce.val := by
  rw [Message1.bytes, nonceField_bytes, m.nonce]

theorem nonceField_message2 (sm : Wpa2Sm) (replay : Octets 8) :
    nonceField (message2 sm replay) = sm.snonce.val := by
  have h := nonceField_bytes (stationFrame keyInfoMsg2 0 replay sm.snonce wpa2RsnIe)
    ((stationFrame keyInfoMsg2 0 replay sm.snonce wpa2RsnIe).mic (kck sm.ptk)) []
  rwa [List.append_nil] at h

theorem micVerifies_message2 (pmk : Octets 32) (aa spa : Octets 6) (anonce snonce : Octets 32)
    (replay : Octets 8) : MicVerifies (kck (ieeePtk pmk aa spa anonce snonce))
      (message2 (waiting pmk aa spa anonce snonce) replay) := by
  rw [← waiting_ptk]
  exact micVerifies_signed _ _

theorem micVerifies_confirmation (pmk : Octets 32) (aa spa : Octets 6)
    (anonce snonce : Octets 32) (keyInfo : UInt16) (replay : Octets 8) :
    MicVerifies (kck (ieeePtk pmk aa spa anonce snonce))
      (confirmation (waiting pmk aa spa anonce snonce) keyInfo replay) := by
  rw [← waiting_ptk]
  exact micVerifies_signed _ _

/-! ## Completeness -/

section Complete

variable {h : Handler Op Op.Answer σ} (hops : OpsSucceed h) (pmk : Octets 32) (aa spa : Octets 6)
  {anonce : Octets 32}

include hops

/-- Repetitions of message 1 keep the state and get the same SNonce. -/
theorem smRun_repeated (snonce : Octets 32) (ms : List (Message1 anonce)) (s : σ) :
    let out := smRun h (ms.map Message1.bytes) (waiting pmk aa spa anonce snonce) s
    out.2.1 = waiting pmk aa spa anonce snonce ∧ sentFrames (runEvents out.1) =
      ms.map fun m => message2 (waiting pmk aa spa anonce snonce) m.frame.replay := by
  induction ms generalizing s with
  | nil => exact ⟨rfl, rfl⟩
  | cons m ms ih =>
    obtain ⟨hlast, hsent⟩ := ih (smStep h (waiting pmk aa spa anonce snonce) m.bytes s).2
    dsimp only
    rw [List.map_cons, smRun_cons, smStep_repeated hops]
    dsimp only
    refine ⟨hlast, ?_⟩
    rw [List.map_cons, ← hsent]
    rfl

/-- The first message 1 and its repetitions. -/
theorem smRun_messages1 (m : Message1 anonce) (ms : List (Message1 anonce)) (s : σ) :
    let sm := waiting pmk aa spa anonce (h (.random 32) s).1
    let out := smRun h ((m :: ms).map Message1.bytes) (wpa2SmInit pmk aa spa) s
    out.2.1 = sm ∧ sentFrames (runEvents out.1) =
      (m :: ms).map fun m => message2 sm m.frame.replay := by
  have hfirst := smStep_first hops pmk aa spa anonce m s
  obtain ⟨hlast, hsent⟩ := smRun_repeated hops pmk aa spa (h (.random 32) s).1 ms
    (smStep h (wpa2SmInit pmk aa spa) m.bytes s).2
  dsimp only at hfirst ⊢
  rw [List.map_cons, smRun_cons, hfirst]
  dsimp only
  refine ⟨hlast, ?_⟩
  rw [List.map_cons, ← hsent]
  rfl

/-- The answer to the first message 1 carries the bytes that were drawn for it. -/
theorem exists_message2_first (m : Message1 anonce) (s : σ) :
    ∃ m2 ∈ sentFrames (smStep h (wpa2SmInit pmk aa spa) m.bytes s).1.events,
      nonceField m2 = ((h (.random 32) s).1 : Octets 32).val := by
  refine ⟨_, ?_, nonceField_message2
    (waiting pmk aa spa anonce (h (.random 32) s).1) m.frame.replay⟩
  rw [smStep_first hops]
  exact List.mem_singleton.mpr rfl

theorem exists_message2 (m : Message1 anonce) (ms : List (Message1 anonce)) (s : σ) :
    ∃ m2 ∈ sentFrames (runEvents
      (smRun h ((m :: ms).map Message1.bytes) (wpa2SmInit pmk aa spa) s).1),
      nonceField m2 = ((h (.random 32) s).1 : Octets 32).val := by
  obtain ⟨m2, hm2, hnonce⟩ := exists_message2_first hops pmk aa spa m s
  refine ⟨m2, ?_, hnonce⟩
  rw [List.map_cons, smRun_cons, runEvents, List.flatMap_cons, sentFrames, List.filterMap_append]
  exact List.mem_append_left _ hm2

end Complete

/-- The handshake with an authenticator that knows the PMK succeeds. It reads the SNonce in any
message 2 and derives its PTK with the arguments in either order; what it then sends as
message 3 is accepted, and both sides hold the same keys. -/
theorem wpa2_handshake_completes {h : Handler Op Op.Answer σ} (hops : OpsSucceed h) (s : σ)
    (pmk : Octets 32) (aa spa : Octets 6) (anonce : Octets 32) (m1s : List (Message1 anonce))
    (hm1s : m1s ≠ []) :
    let start := smRun h (m1s.map Message1.bytes) (wpa2SmInit pmk aa spa) s
    let m2s := sentFrames (runEvents start.1)
    m2s.length = m1s.length ∧
      ∀ (snonce : Octets 32) (ptk : Octets 48), (∃ m2 ∈ m2s, nonceField m2 = snonce.val) →
        (ptk = ieeePtk pmk aa spa anonce snonce ∨ ptk = ieeePtk pmk spa aa snonce anonce) →
        (∀ m2 ∈ m2s, nonceField m2 = snonce.val ∧ MicVerifies (kck ptk) m2) ∧
        ∀ (keyId : UInt8) (gtk : Octets 16) (m3 : Message3 ptk anonce keyId gtk),
          let t := (smStep h start.2.1 m3.bytes start.2.2).1
          t.result = .done ∧
            (∃ m4, sentFrames t.events = [m4] ∧ be16 m4 5 = keyInfoMsg4 ∧
              MicVerifies (kck ptk) m4) ∧
            ptkInstalls t.events = [tk ptk] ∧ gtkInstalls t.events = [(keyId, gtk)] := by
  obtain ⟨m1, ms, rfl⟩ := List.exists_cons_of_ne_nil hm1s
  obtain ⟨hlast, hsent⟩ := smRun_messages1 hops pmk aa spa m1 ms s
  dsimp only at hlast hsent ⊢
  rw [hlast, hsent]
  refine ⟨List.length_map _, fun snonce ptk hread hptk => ?_⟩
  -- the SNonce the authenticator read is the one the station drew
  obtain ⟨m2, hm2, hnonce⟩ := hread
  obtain ⟨m, -, rfl⟩ := List.mem_map.mp hm2
  rw [nonceField_message2] at hnonce
  obtain rfl : (h (.random 32) s).1 = snonce := Subtype.ext hnonce
  obtain rfl : ptk = ieeePtk pmk aa spa anonce (h (.random 32) s).1 := by
    rcases hptk with hptk | hptk
    · exact hptk
    · rw [hptk, ieeePtk_comm]
  constructor
  · intro m2 hm2
    obtain ⟨m, -, rfl⟩ := List.mem_map.mp hm2
    exact ⟨nonceField_message2 _ _, micVerifies_message2 _ _ _ _ _ _⟩
  · intro keyId gtk m3
    obtain ⟨hdone, hevents⟩ := smStep_message3 hops m3
      (smRun h ((m1 :: ms).map Message1.bytes) (wpa2SmInit pmk aa spa) s).2.2
    rw [hevents]
    refine ⟨hdone, ⟨_, rfl, be16_signed _ _, micVerifies_confirmation _ _ _ _ _ _ _⟩, rfl, rfl⟩

/-! ## A concrete authenticator -/

/-- Ops that always succeed; the random bytes count up. -/
def countingOps : Handler Op Op.Answer ℕ
  | .send _, n => (true, n)
  | .installPtk _, n => (true, n)
  | .installGtk _ _, n => (true, n)
  | .openPort, n => (true, n)
  | .random len, n => (⟨List.replicate len (UInt8.ofNat n), List.length_replicate⟩, n + 1)

theorem countingOps_succeed : OpsSucceed countingOps := by
  intro c s
  cases c <;> trivial

/-- A message 1 without key data. -/
def plainMessage1 (anonce : Octets 32) : Message1 anonce where
  frame := ⟨1, 0x008A, 16, Octets.zero 8, anonce, Octets.zero 32, []⟩
  mic := Octets.zero 16
  linkPadding := []
  info := (by decide : (0x008A : UInt16) &&& 0x01CF = 0x008A)
  nonce := rfl
  fits := (by decide : 99 + 0 + 0 ≤ 512)

/-- An RSN element, the GTK and two bytes of padding. -/
def rsnAndGtk (gtk : Octets 16) : KeyItems 1 gtk where
  front := [⟨0x30, wpa2RsnIe.drop 2, by decide⟩]
  back := []
  flags := 0x05
  reserved := 0
  padding := [0xDD, 0x00]
  key_id := rfl
  no_padding := by decide
  one_gtk := by decide
  padding_shape := .inr ⟨1, rfl⟩

theorem length_rsnAndGtk (gtk : Octets 16) : (rsnAndGtk gtk).plain.length = 48 := by
  simp [KeyItems.plain, rsnAndGtk, Element.bytes, Element.gtk, gtkKde, wpa2RsnIe, gtk.property]

def plainMessage3 (ptk : Octets 48) (anonce : Octets 32) (gtk : Octets 16) :
    Message3 ptk anonce 1 gtk where
  frame := ⟨1, 0x13CA, 16, Octets.zero 8, anonce, Octets.zero 32,
    Standard.aesKeyWrap (kek ptk).val (rsnAndGtk gtk).plain⟩
  items := rsnAndGtk gtk
  linkPadding := []
  info := (by decide : (0x13CA : UInt16) &&& 0x13CF = 0x13CA)
  keyLength := rfl
  nonce := rfl
  keyData := rfl
  aligned := by rw [length_rsnAndGtk]
  small := by rw [length_rsnAndGtk]; decide
  fits := by
    have hlen : (Standard.aesKeyWrap (kek ptk).val (rsnAndGtk gtk).plain).length = 48 + 8 := by
      have hplain := length_rsnAndGtk gtk
      rw [aesKeyWrap_kek ptk (by omega) (by omega), length_aesKeyWrap _ (by omega), hplain]
    rw [KeyFrame.size_eq, hlen, List.length_nil]
    decide

theorem wpa2_handshake_completes_counting :
    (smStep countingOps
      (smRun countingOps ([plainMessage1 (Octets.zero 32)].map Message1.bytes)
        (wpa2SmInit (Octets.zero 32) (Octets.zero 6) (Octets.zero 6)) 0).2.1
      (plainMessage3 (ieeePtk (Octets.zero 32) (Octets.zero 6) (Octets.zero 6) (Octets.zero 32)
        (countingOps (.random 32) 0).1) (Octets.zero 32) (Octets.zero 16)).bytes
      (smRun countingOps ([plainMessage1 (Octets.zero 32)].map Message1.bytes)
        (wpa2SmInit (Octets.zero 32) (Octets.zero 6) (Octets.zero 6)) 0).2.2).1.result = .done := by
  have hread := exists_message2 countingOps_succeed (Octets.zero 32) (Octets.zero 6)
    (Octets.zero 6) (plainMessage1 (Octets.zero 32)) [] 0
  have hall := (wpa2_handshake_completes countingOps_succeed 0 (Octets.zero 32) (Octets.zero 6)
    (Octets.zero 6) (Octets.zero 32) [plainMessage1 (Octets.zero 32)] (by simp)).2 _ _ hread
    (.inl rfl)
  exact (hall.2 1 (Octets.zero 16) (plainMessage3 _ _ _)).1

end BekenCam.Wpa2
