import BekenCam.Wpa2Sm

/-!
# What one frame can do

Whatever the ops answer, a frame makes a short sequence of moves. Each move is one call of
an op together with what the state machine does about it, and the guards under which the
code gets there.
-/
namespace BekenCam.Wpa2

abbrev Event := Σ c : Op, Op.Answer c

/-! ## Which handler gets a frame -/

inductive FrameKind
  | other
  | msg1 (k : EapolKey)
  | msg3 (k : EapolKey)
  | group1 (k : EapolKey)

/-- The dispatch of `wpa2_sm_rx` on the key information. -/
def keyKind (k : EapolKey) : FrameKind :=
  if k.keyInfo &&& keyInfoAck = 0 ∨ k.keyInfo &&& keyInfoVersionMask ≠ 2 then .other
  else if k.keyInfo &&& keyInfoPairwise ≠ 0 then
    if k.keyInfo &&& keyInfoMic = 0 ∧ k.keyInfo &&& keyInfoInstall = 0 then .msg1 k
    else if k.keyInfo &&& keyInfoMic ≠ 0 ∧ k.keyInfo &&& keyInfoInstall ≠ 0 then .msg3 k
    else .other
  else if k.keyInfo &&& keyInfoMic ≠ 0 ∧ k.keyInfo &&& keyInfoSecure ≠ 0 then .group1 k
  else .other

def frameKind (frame : List UInt8) : FrameKind :=
  if frame.length > wpa2EapolMax then .other
  else
    match wpa2EapolParse frame with
    | none => .other
    | some k => keyKind k

theorem wpa2SmRx_eq (sm : Wpa2Sm) (frame : List UInt8) :
    wpa2SmRx sm frame =
      match frameKind frame with
      | .other => pure (.ignored, sm)
      | .msg1 k => onMsg1 sm k
      | .msg3 k => onMsg3 sm k frame
      | .group1 k => onGroup1 sm k frame := by
  unfold wpa2SmRx frameKind
  split_ifs
  · rfl
  · cases wpa2EapolParse frame with
    | none => rfl
    | some k =>
      dsimp only [keyKind]
      split_ifs <;> rfl

/-- Only frames that parse reach a handler. -/
theorem parse_of_frameKind {frame : List UInt8} {k : EapolKey}
    (h : frameKind frame = .msg1 k ∨ frameKind frame = .msg3 k ∨ frameKind frame = .group1 k) :
    wpa2EapolParse frame = some k := by
  unfold frameKind at h
  split_ifs at h
  · simp at h
  · cases hp : wpa2EapolParse frame with
    | none => simp [hp] at h
    | some k' =>
      simp only [hp, keyKind] at h
      split_ifs at h <;> simp at h <;> rw [h]

theorem frameKind_bytes (f : KeyFrame) {m pad : List UInt8} (hm : m.length = 16)
    (hfits : f.size + pad.length ≤ 512) : frameKind (f.bytes m ++ pad) = keyKind f.fields := by
  have hlen : (f.bytes m ++ pad).length ≤ wpa2EapolMax := by
    rw [List.length_append, f.length_bytes hm]
    exact hfits
  rw [frameKind, if_neg (Nat.not_lt.mpr hlen), wpa2EapolParse_bytes f pad hm (by omega)]

/-! ## What is sent -/

def message2 (sm : Wpa2Sm) (replay : Octets 8) : List UInt8 :=
  (stationFrame keyInfoMsg2 0 replay sm.snonce wpa2RsnIe).signed (kck sm.ptk)

/-- Message 4 and group message 2 carry no nonce and no key data. -/
def confirmation (sm : Wpa2Sm) (keyInfo : UInt16) (replay : Octets 8) : List UInt8 :=
  (stationFrame keyInfo 0 replay (Octets.zero 32) []).signed (kck sm.ptk)

theorem sendKey_message2 (sm : Wpa2Sm) (replay : Octets 8) :
    sendKey sm keyInfoMsg2 replay (some sm.snonce) wpa2RsnIe =
      Ops.send (message2 sm replay) := by
  rw [sendKey, wpa2EapolBuild_eq _ _ _ _ _ _ _ (by decide)]
  rfl

theorem sendKey_confirmation (sm : Wpa2Sm) (keyInfo : UInt16) (replay : Octets 8) :
    sendKey sm keyInfo replay none [] = Ops.send (confirmation sm keyInfo replay) := by
  rw [sendKey, wpa2EapolBuild_eq _ _ _ _ _ _ _ (by decide)]
  rfl

/-! ## Moves -/

def withAnonce (sm : Wpa2Sm) (anonce snonce : Octets 32) : Wpa2Sm :=
  { sm with
    anonce := anonce
    snonce := snonce
    ptk := wpa2Ptk sm.pmk sm.aa sm.spa anonce snonce }

inductive Move : Wpa2Sm → Event → Wpa2Sm → Prop
  | draw (sm : Wpa2Sm) (anonce snonce : Octets 32) (hfree : sm.ptkInstalled = false) :
      Move sm ⟨.random 32, snonce⟩ (withAnonce sm anonce snonce)
  | answer (sm : Wpa2Sm) (replay : Octets 8) (sent : Bool) (hfree : sm.ptkInstalled = false) :
      Move sm ⟨.send (message2 sm replay), sent⟩
        (if sent then { sm with state := .gotMsg1 } else sm)
  | confirm (sm : Wpa2Sm) (keyInfo : UInt16) (replay : Octets 8) (sent : Bool)
      (hinfo : keyInfo = keyInfoMsg4 ∨ keyInfo = keyInfoGroupMsg2) :
      Move sm ⟨.send (confirmation sm keyInfo replay), sent⟩ (noteReplay sm replay)
  | installPtk (sm : Wpa2Sm) (ok : Bool) (hfree : sm.ptkInstalled = false)
      (hreplay : sm.haveReplay = true) :
      Move sm ⟨.installPtk (tk sm.ptk), ok⟩ (if ok then { sm with ptkInstalled := true } else sm)
  | installGtk (sm : Wpa2Sm) (id : UInt8) (gtk : Octets 16) (ok : Bool)
      (hnew : ¬(sm.gtkInstalled = true ∧ sm.gtkId = id ∧ sm.gtk = gtk)) :
      Move sm ⟨.installGtk id gtk, ok⟩
        (if ok then { sm with gtk := gtk, gtkId := id, gtkInstalled := true } else sm)
  | openPort (sm : Wpa2Sm) (ok : Bool) (hptk : sm.ptkInstalled = true)
      (hgtk : sm.gtkInstalled = true) (hreplay : sm.haveReplay = true)
      (hclosed : sm.state ≠ .established) :
      Move sm ⟨.openPort, ok⟩ (if ok then { sm with state := .established } else sm)

inductive Moves : Wpa2Sm → List Event → Wpa2Sm → Prop
  | nil (sm : Wpa2Sm) : Moves sm [] sm
  | cons {sm sm₁ sm₂ : Wpa2Sm} {e : Event} {es : List Event} (hfirst : Move sm e sm₁)
      (hrest : Moves sm₁ es sm₂) : Moves sm (e :: es) sm₂

theorem Moves.append {sm sm₁ sm₂ : Wpa2Sm} {es fs : List Event} (h₁ : Moves sm es sm₁)
    (h₂ : Moves sm₁ fs sm₂) : Moves sm (es ++ fs) sm₂ := by
  induction h₁ with
  | nil => exact h₂
  | cons hfirst _ ih => exact .cons hfirst (ih h₂)

theorem Move.single {sm sm₁ : Wpa2Sm} {e : Event} (h : Move sm e sm₁) : Moves sm [e] sm₁ :=
  .cons h (.nil _)

/-! ## The pieces of the handlers -/

open Prog

theorem performs_takeAnonce {sm sm₁ : Wpa2Sm} {anonce : Octets 32} {es : List Event}
    (h : Performs (takeAnonce sm anonce) es sm₁) :
    (sm.state = .gotMsg1 ∧ sm.anonce = anonce ∧ es = [] ∧ sm₁ = sm) ∨
      ((sm.state ≠ .gotMsg1 ∨ sm.anonce ≠ anonce) ∧
        ∃ snonce, es = [⟨.random 32, snonce⟩] ∧ sm₁ = withAnonce sm anonce snonce) := by
  unfold takeAnonce at h
  split_ifs at h with hnew
  · obtain ⟨snonce, fs, rfl, hrest⟩ := performs_command h
    obtain ⟨rfl, rfl⟩ := performs_ret hrest
    exact .inr ⟨hnew, snonce, rfl, rfl⟩
  · obtain ⟨rfl, rfl⟩ := performs_ret h
    rw [not_or, not_not, not_not] at hnew
    exact .inl ⟨hnew.1, hnew.2, rfl, rfl⟩

theorem performs_installPtkOnce {sm sm₁ : Wpa2Sm} {ok : Bool} {es : List Event}
    (h : Performs (installPtkOnce sm) es (ok, sm₁)) :
    (sm.ptkInstalled = true ∧ es = [] ∧ ok = true ∧ sm₁ = sm) ∨
      (sm.ptkInstalled = false ∧ es = [⟨.installPtk (tk sm.ptk), ok⟩] ∧
        sm₁ = if ok then { sm with ptkInstalled := true } else sm) := by
  unfold installPtkOnce at h
  split_ifs at h with hdone
  · obtain ⟨rfl, heq⟩ := performs_ret h
    simp only [Prod.mk.injEq] at heq
    exact .inl ⟨hdone, rfl, heq⟩
  · obtain ⟨r, fs, rfl, hrest⟩ := performs_command h
    have hfree : sm.ptkInstalled = false := by simpa using hdone
    cases r with
    | false =>
      obtain ⟨rfl, heq⟩ := performs_ret hrest
      obtain ⟨rfl, rfl⟩ := Prod.mk.inj heq
      exact .inr ⟨hfree, rfl, rfl⟩
    | true =>
      obtain ⟨rfl, heq⟩ := performs_ret hrest
      obtain ⟨rfl, rfl⟩ := Prod.mk.inj heq
      exact .inr ⟨hfree, rfl, rfl⟩

theorem performs_installGtkOnce {sm sm₁ : Wpa2Sm} {id : UInt8} {gtk : Octets 16} {ok : Bool}
    {es : List Event} (h : Performs (installGtkOnce sm id gtk) es (ok, sm₁)) :
    ((sm.gtkInstalled = true ∧ sm.gtkId = id ∧ sm.gtk = gtk) ∧ es = [] ∧ ok = true ∧ sm₁ = sm) ∨
      (¬(sm.gtkInstalled = true ∧ sm.gtkId = id ∧ sm.gtk = gtk) ∧
        es = [⟨.installGtk id gtk, ok⟩] ∧
        sm₁ = if ok then { sm with gtk := gtk, gtkId := id, gtkInstalled := true } else sm) := by
  unfold installGtkOnce at h
  split_ifs at h with hsame
  · obtain ⟨rfl, heq⟩ := performs_ret h
    simp only [Prod.mk.injEq] at heq
    exact .inl ⟨hsame, rfl, heq⟩
  · obtain ⟨r, fs, rfl, hrest⟩ := performs_command h
    cases r with
    | false =>
      obtain ⟨rfl, heq⟩ := performs_ret hrest
      obtain ⟨rfl, rfl⟩ := Prod.mk.inj heq
      exact .inr ⟨hsame, rfl, rfl⟩
    | true =>
      obtain ⟨rfl, heq⟩ := performs_ret hrest
      obtain ⟨rfl, rfl⟩ := Prod.mk.inj heq
      exact .inr ⟨hsame, rfl, rfl⟩

/-! ## One frame -/

/-- A key is handed to the radio, or the port is opened. -/
def Event.IsKeyOp : Event → Prop
  | ⟨.installPtk _, _⟩ | ⟨.installGtk _ _, _⟩ | ⟨.openPort, _⟩ => True
  | _ => False

/-- The frame passes the MIC and the replay check. -/
def Authentic (sm : Wpa2Sm) (k : EapolKey) (frame : List UInt8) : Prop :=
  wpa2EapolMicOk (kck sm.ptk) frame k.frameLen = true ∧ replayOk sm k.replay = true

/-- What follows the confirmation of an accepted frame. -/
structure KeyPhase (sm : Wpa2Sm) (es : List Event) (r : Wpa2Result) (sm' : Wpa2Sm) : Prop where
  moves : Moves sm es sm'
  keyOps : ∀ e ∈ es, Event.IsKeyOp e
  not_ignored : r ≠ .ignored
  opened : r = .done → ⟨.openPort, true⟩ ∈ es

theorem KeyPhase.stop {sm sm' : Wpa2Sm} {es : List Event} {r r' : Wpa2Result}
    (h : Performs (ret (r', sm) : OpsM _) es (r, sm')) (hr : r' = .failed ∨ r' = .progress) :
    KeyPhase sm es r sm' := by
  obtain ⟨rfl, heq⟩ := performs_ret h
  obtain ⟨rfl, rfl⟩ := Prod.mk.inj heq
  refine ⟨.nil _, by simp, ?_, ?_⟩
  · rcases hr with rfl | rfl <;> decide
  · rcases hr with rfl | rfl <;> simp

theorem KeyPhase.prepend {sm sm₁ sm' : Wpa2Sm} {es fs : List Event} {r : Wpa2Result}
    (hmoves : Moves sm es sm₁) (hkeys : ∀ e ∈ es, Event.IsKeyOp e) (h : KeyPhase sm₁ fs r sm') :
    KeyPhase sm (es ++ fs) r sm' where
  moves := hmoves.append h.moves
  keyOps e he := (List.mem_append.mp he).elim (hkeys e) (h.keyOps e)
  not_ignored := h.not_ignored
  opened hr := List.mem_append_right _ (h.opened hr)

/-- What a frame leads to: nothing, an answer to message 1, or an accepted frame with its
confirmation and the key operations behind it. -/
inductive Outcome (sm : Wpa2Sm) (frame : List UInt8) :
    List Event → Wpa2Result → Wpa2Sm → Prop
  | quiet (r : Wpa2Result) (hr : r = .ignored ∨ r = .failed) : Outcome sm frame [] r sm
  | answered (k : EapolKey) (fs : List Event) (sm₁ : Wpa2Sm) (sent : Bool)
      (hkind : frameKind frame = .msg1 k) (hfree : sm.ptkInstalled = false)
      (htake : Performs (takeAnonce sm k.nonce) fs sm₁) :
      Outcome sm frame (fs ++ [⟨.send (message2 sm₁ k.replay), sent⟩])
        (if sent then .progress else .failed) (if sent then { sm₁ with state := .gotMsg1 } else sm₁)
  | accepted (k : EapolKey) (keyInfo : UInt16) (sent : Bool) (fs : List Event) (r : Wpa2Result)
      (sm' : Wpa2Sm) (hparse : wpa2EapolParse frame = some k) (hauth : Authentic sm k frame)
      (hinfo : keyInfo = keyInfoMsg4 ∨ keyInfo = keyInfoGroupMsg2)
      (hphase : KeyPhase (noteReplay sm k.replay) fs r sm') :
      Outcome sm frame (⟨.send (confirmation sm keyInfo k.replay), sent⟩ :: fs) r sm'

theorem quiet_of_ret {sm sm' : Wpa2Sm} {frame : List UInt8} {es : List Event}
    {r r' : Wpa2Result} (h : Performs (ret (r', sm) : OpsM _) es (r, sm'))
    (hr : r' = .ignored ∨ r' = .failed) : Outcome sm frame es r sm' := by
  obtain ⟨rfl, heq⟩ := performs_ret h
  obtain ⟨rfl, rfl⟩ := Prod.mk.inj heq
  exact .quiet _ hr

/-- While the PTK is not in, message 1 is always answered. -/
theorem performs_onMsg1 {sm sm' : Wpa2Sm} {k : EapolKey} {es : List Event} {r : Wpa2Result}
    (hfree : sm.ptkInstalled = false) (h : Performs (onMsg1 sm k) es (r, sm')) :
    ∃ sm₁ fs sent, Performs (takeAnonce sm k.nonce) fs sm₁ ∧
      es = fs ++ [⟨.send (message2 sm₁ k.replay), sent⟩] ∧
      r = (if sent then .progress else .failed) ∧
      sm' = if sent then { sm₁ with state := .gotMsg1 } else sm₁ := by
  unfold onMsg1 at h
  rw [if_neg (by simp [hfree])] at h
  obtain ⟨sm₁, fs, gs, rfl, htake, hsend⟩ := performs_bind h
  rw [sendKey_message2] at hsend
  obtain ⟨sent, hs, rfl, hrest⟩ := performs_command hsend
  refine ⟨sm₁, fs, sent, htake, ?_⟩
  cases sent with
  | false =>
    obtain ⟨rfl, heq⟩ := performs_ret hrest
    obtain ⟨rfl, rfl⟩ := Prod.mk.inj heq
    exact ⟨rfl, rfl, rfl⟩
  | true =>
    obtain ⟨rfl, heq⟩ := performs_ret hrest
    obtain ⟨rfl, rfl⟩ := Prod.mk.inj heq
    exact ⟨rfl, rfl, rfl⟩

theorem onMsg1_outcome {sm sm' : Wpa2Sm} {frame : List UInt8} {k : EapolKey} {es : List Event}
    {r : Wpa2Result} (hkind : frameKind frame = .msg1 k)
    (h : Performs (onMsg1 sm k) es (r, sm')) : Outcome sm frame es r sm' := by
  by_cases hdone : sm.ptkInstalled = true
  · rw [onMsg1, if_pos hdone] at h
    exact quiet_of_ret h (.inl rfl)
  · have hfree : sm.ptkInstalled = false := by simpa using hdone
    obtain ⟨sm₁, fs, sent, htake, rfl, rfl, rfl⟩ := performs_onMsg1 hfree h
    exact .answered k fs sm₁ sent hkind hfree htake

theorem installPtkOnce_moves {sm sm₁ : Wpa2Sm} {ok : Bool} {es : List Event}
    (hreplay : sm.haveReplay = true) (h : Performs (installPtkOnce sm) es (ok, sm₁)) :
    Moves sm es sm₁ ∧ (∀ e ∈ es, Event.IsKeyOp e) ∧ sm₁.haveReplay = true ∧
      (ok = true → sm₁.ptkInstalled = true) := by
  rcases performs_installPtkOnce h with ⟨hptk, rfl, -, rfl⟩ | ⟨hfree, rfl, rfl⟩
  · exact ⟨.nil _, by simp, hreplay, fun _ => hptk⟩
  · refine ⟨(Move.installPtk sm ok hfree hreplay).single, by simp [Event.IsKeyOp], ?_, ?_⟩
    · cases ok <;> exact hreplay
    · rintro rfl
      rfl

theorem installGtkOnce_moves {sm sm₁ : Wpa2Sm} {id : UInt8} {gtk : Octets 16} {ok : Bool}
    {es : List Event} (h : Performs (installGtkOnce sm id gtk) es (ok, sm₁)) :
    Moves sm es sm₁ ∧ (∀ e ∈ es, Event.IsKeyOp e) ∧ sm₁.haveReplay = sm.haveReplay ∧
      sm₁.ptkInstalled = sm.ptkInstalled ∧ (ok = true → sm₁.gtkInstalled = true) := by
  rcases performs_installGtkOnce h with ⟨hsame, rfl, -, rfl⟩ | ⟨hnew, rfl, rfl⟩
  · exact ⟨.nil _, by simp, rfl, rfl, fun _ => hsame.1⟩
  · refine ⟨(Move.installGtk sm id gtk ok hnew).single, by simp [Event.IsKeyOp], ?_, ?_, ?_⟩
    · cases ok <;> rfl
    · cases ok <;> rfl
    · rintro rfl
      rfl

/-- The end of `on_msg3`, with both keys in. -/
theorem openPort_phase {sm sm' : Wpa2Sm} {es : List Event} {r : Wpa2Result}
    (hptk : sm.ptkInstalled = true) (hgtk : sm.gtkInstalled = true)
    (hreplay : sm.haveReplay = true) (hclosed : sm.state ≠ .established)
    (h : Performs (do
      let ok ← Ops.openPort
      if !ok then pure (.failed, sm)
      else pure (.done, { sm with state := .established })) es (r, sm')) :
    KeyPhase sm es r sm' := by
  obtain ⟨ok, fs, rfl, hrest⟩ := performs_command h
  have hmove := (Move.openPort sm ok hptk hgtk hreplay hclosed).single
  cases ok with
  | false => exact .prepend hmove (by simp [Event.IsKeyOp]) (.stop hrest (.inl rfl))
  | true =>
    obtain ⟨rfl, heq⟩ := performs_ret hrest
    obtain ⟨rfl, rfl⟩ := Prod.mk.inj heq
    exact ⟨hmove, by simp [Event.IsKeyOp], by decide, by simp⟩

theorem onMsg3_outcome {sm sm' : Wpa2Sm} {frame : List UInt8} {k : EapolKey} {es : List Event}
    {r : Wpa2Result} (hparse : wpa2EapolParse frame = some k)
    (h : Performs (onMsg3 sm k frame) es (r, sm')) : Outcome sm frame es r sm' := by
  unfold onMsg3 at h
  rcases performs_ite h with ⟨-, h⟩ | ⟨-, h⟩
  · exact quiet_of_ret h (.inl rfl)
  rcases performs_ite h with ⟨-, h⟩ | ⟨hmic, h⟩
  · exact quiet_of_ret h (.inl rfl)
  rcases performs_ite h with ⟨-, h⟩ | ⟨hreplay, h⟩
  · exact quiet_of_ret h (.inl rfl)
  rcases performs_ite h with ⟨-, h⟩ | ⟨-, h⟩
  · exact quiet_of_ret h (.inl rfl)
  have hauth : Authentic sm k frame := by
    constructor
    · simpa using hmic
    · simpa using hreplay
  cases hgtk : unwrapGtk (kek sm.ptk) k with
  | none =>
    rw [hgtk] at h
    exact quiet_of_ret h (.inr rfl)
  | some found =>
    obtain ⟨id, gtk⟩ := found
    rw [hgtk] at h
    dsimp only at h
    rw [sendKey_confirmation] at h
    obtain ⟨sent, fs, rfl, hrest⟩ := performs_command h
    apply Outcome.accepted k keyInfoMsg4 sent fs r sm' hparse hauth (.inl rfl)
    -- from here on each failed op ends the frame, with the counter already noted
    cases sent with
    | false => exact .stop hrest (.inl rfl)
    | true =>
    obtain ⟨⟨ok, sm₁⟩, gs, hs, rfl, hptkRun, hrest⟩ := performs_bind hrest
    obtain ⟨hmoves₁, hkeys₁, hreplay₁, hptk₁⟩ := installPtkOnce_moves rfl hptkRun
    apply KeyPhase.prepend hmoves₁ hkeys₁
    cases ok with
    | false => exact .stop hrest (.inl rfl)
    | true =>
    obtain ⟨⟨ok, sm₂⟩, gs₂, hs₂, rfl, hgtkRun, hrest⟩ := performs_bind hrest
    obtain ⟨hmoves₂, hkeys₂, hreplay₂, hptk₂, hgtk₂⟩ := installGtkOnce_moves hgtkRun
    apply KeyPhase.prepend hmoves₂ hkeys₂
    cases ok with
    | false => exact .stop hrest (.inl rfl)
    | true =>
      simp only [Bool.not_true, Bool.false_eq_true, if_false] at hrest
      split_ifs at hrest with hest
      · exact .stop hrest (.inr rfl)
      · exact openPort_phase (hptk₂.trans (hptk₁ rfl)) (hgtk₂ rfl) (hreplay₂.trans hreplay₁) hest
          hrest

theorem onGroup1_outcome {sm sm' : Wpa2Sm} {frame : List UInt8} {k : EapolKey} {es : List Event}
    {r : Wpa2Result} (hparse : wpa2EapolParse frame = some k)
    (h : Performs (onGroup1 sm k frame) es (r, sm')) : Outcome sm frame es r sm' := by
  unfold onGroup1 at h
  rcases performs_ite h with ⟨-, h⟩ | ⟨-, h⟩
  · exact quiet_of_ret h (.inl rfl)
  rcases performs_ite h with ⟨-, h⟩ | ⟨hmic, h⟩
  · exact quiet_of_ret h (.inl rfl)
  rcases performs_ite h with ⟨-, h⟩ | ⟨hreplay, h⟩
  · exact quiet_of_ret h (.inl rfl)
  have hauth : Authentic sm k frame := by
    constructor
    · simpa using hmic
    · simpa using hreplay
  cases hgtk : unwrapGtk (kek sm.ptk) k with
  | none =>
    rw [hgtk] at h
    exact quiet_of_ret h (.inr rfl)
  | some found =>
    obtain ⟨id, gtk⟩ := found
    rw [hgtk] at h
    dsimp only at h
    rw [sendKey_confirmation] at h
    obtain ⟨sent, fs, rfl, hrest⟩ := performs_command h
    apply Outcome.accepted k keyInfoGroupMsg2 sent fs r sm' hparse hauth (.inr rfl)
    cases sent with
    | false => exact .stop hrest (.inl rfl)
    | true =>
    obtain ⟨⟨ok, sm₁⟩, gs, hs, rfl, hgtkRun, hrest⟩ := performs_bind hrest
    obtain ⟨hmoves, hkeys, -, -, -⟩ := installGtkOnce_moves hgtkRun
    apply KeyPhase.prepend hmoves hkeys
    cases ok with
    | false => exact .stop hrest (.inl rfl)
    | true => exact .stop hrest (.inr rfl)

/-- Every run of `wpa2_sm_rx` has one of the outcomes. -/
theorem wpa2SmRx_outcome {sm sm' : Wpa2Sm} {frame : List UInt8} {es : List Event}
    {r : Wpa2Result} (h : Performs (wpa2SmRx sm frame) es (r, sm')) :
    Outcome sm frame es r sm' := by
  rw [wpa2SmRx_eq] at h
  cases hkind : frameKind frame with
  | other =>
    rw [hkind] at h
    exact quiet_of_ret h (.inl rfl)
  | msg1 k =>
    rw [hkind] at h
    exact onMsg1_outcome hkind h
  | msg3 k =>
    rw [hkind] at h
    exact onMsg3_outcome (parse_of_frameKind (.inr (.inl hkind))) h
  | group1 k =>
    rw [hkind] at h
    exact onGroup1_outcome (parse_of_frameKind (.inr (.inr hkind))) h

end BekenCam.Wpa2
