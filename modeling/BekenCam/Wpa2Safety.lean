import Mathlib.Data.List.Chain
import BekenCam.Wpa2Moves

/-!
# Runs of the state machine

A run feeds any frames to the state machine, one after the other, with ops that answer as
they like. The invariants relate the history of a run to the flags of its last state.
-/
namespace BekenCam.Wpa2

open Prog

variable {σ : Type}

/-! ## Runs -/

/-- One frame of a run: the states around it, the calls of the ops and the result. -/
structure Step where
  before : Wpa2Sm
  frame : List UInt8
  events : List Event
  result : Wpa2Result
  after : Wpa2Sm

/-- One frame under given ops, and what the ops' own state is afterwards. -/
def smStep (h : Handler Op Op.Answer σ) (sm : Wpa2Sm) (frame : List UInt8) (s : σ) : Step × σ :=
  let out := run h (wpa2SmRx sm frame) s
  (⟨sm, frame, events h (wpa2SmRx sm frame) s, out.1.1, out.1.2⟩, out.2)

theorem performs_smStep (h : Handler Op Op.Answer σ) (sm : Wpa2Sm) (frame : List UInt8) (s : σ) :
    Performs (wpa2SmRx sm frame) (smStep h sm frame s).1.events
      ((smStep h sm frame s).1.result, (smStep h sm frame s).1.after) :=
  performs_events h _ s

/-- The steps of a run, with the states of the machine and of the ops at its end. -/
def smRun (h : Handler Op Op.Answer σ) : List (List UInt8) → Wpa2Sm → σ → List Step × Wpa2Sm × σ
  | [], sm, s => ([], sm, s)
  | frame :: frames, sm, s =>
    let (t, s') := smStep h sm frame s
    let (ts, last) := smRun h frames t.after s'
    (t :: ts, last)

theorem smRun_cons (h : Handler Op Op.Answer σ) (frame : List UInt8) (frames : List (List UInt8))
    (sm : Wpa2Sm) (s : σ) : smRun h (frame :: frames) sm s =
      ((smStep h sm frame s).1 ::
        (smRun h frames (smStep h sm frame s).1.after (smStep h sm frame s).2).1,
        (smRun h frames (smStep h sm frame s).1.after (smStep h sm frame s).2).2) := rfl

def runEvents (ts : List Step) : List Event := ts.flatMap Step.events

/-- A history that leads from one state to another. -/
inductive Reaches (start : Wpa2Sm) : List Step → Wpa2Sm → Prop
  | refl : Reaches start [] start
  | step {ts : List Step} {t : Step} (hrun : Reaches start ts t.before)
      (hout : Outcome t.before t.frame t.events t.result t.after) :
      Reaches start (ts ++ [t]) t.after

theorem smStep_outcome (h : Handler Op Op.Answer σ) (sm : Wpa2Sm) (frame : List UInt8) (s : σ) :
    Outcome sm frame (smStep h sm frame s).1.events (smStep h sm frame s).1.result
      (smStep h sm frame s).1.after :=
  wpa2SmRx_outcome (performs_events h (wpa2SmRx sm frame) s)

theorem Reaches.trans_run (h : Handler Op Op.Answer σ) {start sm : Wpa2Sm} {ts : List Step}
    (hts : Reaches start ts sm) (frames : List (List UInt8)) (s : σ) :
    Reaches start (ts ++ (smRun h frames sm s).1) (smRun h frames sm s).2.1 := by
  induction frames generalizing ts sm s with
  | nil => simpa [smRun] using hts
  | cons frame frames ih =>
    have hstep : Reaches start (ts ++ [(smStep h sm frame s).1]) (smStep h sm frame s).1.after :=
      .step hts (smStep_outcome h sm frame s)
    have hrest := ih hstep (smStep h sm frame s).2
    rw [List.append_assoc, List.singleton_append] at hrest
    exact hrest

theorem smRun_reaches (h : Handler Op Op.Answer σ) (sm : Wpa2Sm) (frames : List (List UInt8))
    (s : σ) : Reaches sm (smRun h frames sm s).1 (smRun h frames sm s).2.1 :=
  Reaches.trans_run h .refl frames s

theorem Reaches.last {start sm : Wpa2Sm} {ts : List Step} {t : Step}
    (h : Reaches start (ts ++ [t]) sm) :
    Reaches start ts t.before ∧ Outcome t.before t.frame t.events t.result t.after ∧
      sm = t.after := by
  generalize hl : ts ++ [t] = l at h
  cases h with
  | refl => simp at hl
  | step hrun hout =>
    obtain ⟨rfl, heq⟩ := List.append_inj' hl rfl
    obtain rfl := List.singleton_inj.mp heq
    exact ⟨hrun, hout, rfl⟩

/-- A history can be cut anywhere. -/
theorem Reaches.split {start sm : Wpa2Sm} {pre post : List Step}
    (h : Reaches start (pre ++ post) sm) : ∃ mid, Reaches start pre mid ∧ Reaches mid post sm := by
  induction post using List.reverseRecOn generalizing sm with
  | nil => exact ⟨sm, by simpa using h, .refl⟩
  | append_singleton post t ih =>
    rw [← List.append_assoc] at h
    obtain ⟨hrun, hout, rfl⟩ := h.last
    obtain ⟨mid, hpre, hpost⟩ := ih hrun
    exact ⟨mid, hpre, .step hpost hout⟩

/-! ## What is in a history -/

def Event.installedPtk : Event → Option (Octets 16)
  | ⟨.installPtk tk, true⟩ => some tk
  | _ => none

def Event.installedGtk : Event → Option (UInt8 × Octets 16)
  | ⟨.installGtk id gtk, true⟩ => some (id, gtk)
  | _ => none

def Event.openedPort : Event → Option Unit
  | ⟨.openPort, true⟩ => some ()
  | _ => none

/-- The successful key installations, in order. -/
def ptkInstalls (es : List Event) : List (Octets 16) := es.filterMap Event.installedPtk
def gtkInstalls (es : List Event) : List (UInt8 × Octets 16) := es.filterMap Event.installedGtk
def portOpenings (es : List Event) : List Unit := es.filterMap Event.openedPort

section Move

variable {sm sm' : Wpa2Sm} {e : Event} (h : Move sm e sm')

include h

theorem Move.ptk_cases :
    (e.installedPtk = none ∧ sm'.ptkInstalled = sm.ptkInstalled) ∨
      ∃ key, e.installedPtk = some key ∧ sm.ptkInstalled = false ∧ sm'.ptkInstalled = true := by
  cases h with
  | draw | confirm => exact .inl ⟨rfl, rfl⟩
  | answer _ sent => cases sent <;> exact .inl ⟨rfl, rfl⟩
  | installPtk ok hfree =>
    cases ok with
    | false => exact .inl ⟨rfl, rfl⟩
    | true => exact .inr ⟨_, rfl, hfree, rfl⟩
  | installGtk _ _ ok | openPort ok => cases ok <;> exact .inl ⟨rfl, rfl⟩

theorem Move.gtk_cases :
    (e.installedGtk = none ∧ sm'.gtkInstalled = sm.gtkInstalled ∧ sm'.gtkId = sm.gtkId ∧
        sm'.gtk = sm.gtk) ∨
      (¬(sm.gtkInstalled = true ∧ (sm.gtkId, sm.gtk) = (sm'.gtkId, sm'.gtk)) ∧
        e.installedGtk = some (sm'.gtkId, sm'.gtk) ∧ sm'.gtkInstalled = true) := by
  cases h with
  | draw | confirm => exact .inl ⟨rfl, rfl, rfl, rfl⟩
  | answer _ sent => cases sent <;> exact .inl ⟨rfl, rfl, rfl, rfl⟩
  | installGtk id gtk ok hnew =>
    cases ok with
    | false => exact .inl ⟨rfl, rfl, rfl, rfl⟩
    | true => exact .inr ⟨by simpa using hnew, rfl, rfl⟩
  | installPtk ok | openPort ok => cases ok <;> exact .inl ⟨rfl, rfl, rfl, rfl⟩

theorem Move.port_cases :
    (e.openedPort = none ∧ (sm'.state = sm.state ∨
        sm'.state = .gotMsg1 ∧ sm.ptkInstalled = false)) ∨
      (e.openedPort = some () ∧ sm.state ≠ .established ∧ sm'.state = .established) := by
  cases h with
  | draw | confirm => exact .inl ⟨rfl, .inl rfl⟩
  | answer _ sent hfree =>
    cases sent with
    | false => exact .inl ⟨rfl, .inl rfl⟩
    | true => exact .inl ⟨rfl, .inr ⟨rfl, hfree⟩⟩
  | installPtk ok | installGtk _ _ ok => cases ok <;> exact .inl ⟨rfl, .inl rfl⟩
  | openPort ok _ _ _ hclosed =>
    cases ok with
    | false => exact .inl ⟨rfl, .inl rfl⟩
    | true => exact .inr ⟨rfl, hclosed, rfl⟩

/-- Flags are never taken back. -/
theorem Move.flags :
    (sm.ptkInstalled = true → sm'.ptkInstalled = true) ∧
      (sm.gtkInstalled = true → sm'.gtkInstalled = true) ∧
      (sm.haveReplay = true → sm'.haveReplay = true) := by
  cases h with
  | draw => exact ⟨id, id, id⟩
  | confirm => exact ⟨id, id, fun _ => rfl⟩
  | answer _ sent => cases sent <;> exact ⟨id, id, id⟩
  | installPtk ok hfree =>
    cases ok with
    | false => exact ⟨id, id, id⟩
    | true => exact ⟨fun _ => rfl, id, id⟩
  | installGtk _ _ ok =>
    cases ok with
    | false => exact ⟨id, id, id⟩
    | true => exact ⟨id, fun _ => rfl, id⟩
  | openPort ok => cases ok <;> exact ⟨id, id, id⟩

/-- With the PTK in, neither it nor the nonces it came from change. -/
theorem Move.keys_fixed (hptk : sm.ptkInstalled = true) :
    sm'.ptk = sm.ptk ∧ sm'.anonce = sm.anonce ∧ sm'.snonce = sm.snonce := by
  cases h with
  | draw _ _ hfree => simp [hfree] at hptk
  | confirm => exact ⟨rfl, rfl, rfl⟩
  | answer _ sent => cases sent <;> exact ⟨rfl, rfl, rfl⟩
  | installPtk ok | installGtk _ _ ok | openPort ok => cases ok <;> exact ⟨rfl, rfl, rfl⟩

end Move

/-- How the flags of a state tell about the calls that led to it. -/
structure History (es : List Event) (sm : Wpa2Sm) : Prop where
  ptk : (ptkInstalls es).length = if sm.ptkInstalled then 1 else 0
  gtk_last : (gtkInstalls es).getLast? = if sm.gtkInstalled then some (sm.gtkId, sm.gtk) else none
  gtk_chain : (gtkInstalls es).IsChain (· ≠ ·)
  port : (portOpenings es).length = if sm.state = .established then 1 else 0
  port_after : ∀ pre ok post, es = pre ++ (⟨.openPort, ok⟩ : Event) :: post →
    ptkInstalls pre ≠ [] ∧ gtkInstalls pre ≠ []
  established : sm.state = .established →
    sm.ptkInstalled = true ∧ sm.gtkInstalled = true ∧ sm.haveReplay = true

theorem history_init (pmk : Octets 32) (aa spa : Octets 6) :
    History [] (wpa2SmInit pmk aa spa) where
  ptk := rfl
  gtk_last := rfl
  gtk_chain := List.isChain_nil
  port := rfl
  port_after pre ok post h := by simp at h
  established h := by simp [wpa2SmInit] at h

theorem History.ptkInstalls_ne_nil {es : List Event} {sm : Wpa2Sm} (h : History es sm)
    (hptk : sm.ptkInstalled = true) : ptkInstalls es ≠ [] := by
  have hlen := h.ptk
  rw [hptk, if_pos rfl] at hlen
  exact List.ne_nil_of_length_pos (by omega)

theorem History.gtkInstalls_ne_nil {es : List Event} {sm : Wpa2Sm} (h : History es sm)
    (hgtk : sm.gtkInstalled = true) : gtkInstalls es ≠ [] := by
  intro hnil
  have hlast := h.gtk_last
  rw [hnil, hgtk] at hlast
  simp at hlast

section Step

variable {es : List Event} {sm sm' : Wpa2Sm} {e : Event} (hist : History es sm)
  (h : Move sm e sm')

include hist h

theorem History.step_ptk :
    (ptkInstalls (es ++ [e])).length = if sm'.ptkInstalled then 1 else 0 := by
  rcases h.ptk_cases with ⟨hnone, hflag⟩ | ⟨key, hsome, hfree, hflag⟩
  · simpa [ptkInstalls, hnone, hflag] using hist.ptk
  · have hlen := hist.ptk
    rw [hfree] at hlen
    simpa [ptkInstalls, hsome, hflag] using hlen

theorem History.step_gtk_last : (gtkInstalls (es ++ [e])).getLast? =
    if sm'.gtkInstalled then some (sm'.gtkId, sm'.gtk) else none := by
  rcases h.gtk_cases with ⟨hnone, hflag, hid, hgtk⟩ | ⟨-, hsome, hflag⟩
  · simpa [gtkInstalls, hnone, hflag, hid, hgtk] using hist.gtk_last
  · simp [gtkInstalls, hsome, hflag]

theorem History.step_gtk_chain : (gtkInstalls (es ++ [e])).IsChain (· ≠ ·) := by
  rcases h.gtk_cases with ⟨hnone, -⟩ | ⟨hnew, hsome, -⟩
  · simpa [gtkInstalls, hnone] using hist.gtk_chain
  · have happ : gtkInstalls (es ++ [e]) = gtkInstalls es ++ [(sm'.gtkId, sm'.gtk)] := by
      simp [gtkInstalls, hsome]
    rw [happ]
    refine hist.gtk_chain.append (List.isChain_singleton _) fun x hx y hy => ?_
    rw [hist.gtk_last, Option.mem_def] at hx
    rw [List.head?_singleton, Option.mem_some_iff] at hy
    cases hflag : sm.gtkInstalled with
    | false => simp [hflag] at hx
    | true =>
      rw [hflag, if_pos rfl] at hx
      obtain rfl := Option.some.inj hx
      rw [← hy]
      exact fun heq => hnew ⟨hflag, heq⟩

theorem History.step_established (hest : sm'.state = .established) :
    sm'.ptkInstalled = true ∧ sm'.gtkInstalled = true ∧ sm'.haveReplay = true := by
  cases h with
  | draw => exact hist.established hest
  | confirm =>
    obtain ⟨hptk, hgtk, -⟩ := hist.established hest
    exact ⟨hptk, hgtk, rfl⟩
  | answer _ sent =>
    cases sent with
    | false => exact hist.established hest
    | true => simp at hest
  | installPtk ok _ hreplay =>
    cases ok with
    | false => exact hist.established hest
    | true =>
      obtain ⟨-, hgtk, -⟩ := hist.established hest
      exact ⟨rfl, hgtk, hreplay⟩
  | installGtk id gtk ok =>
    cases ok with
    | false => exact hist.established hest
    | true =>
      obtain ⟨hptk, -, hreplay⟩ := hist.established hest
      exact ⟨hptk, rfl, hreplay⟩
  | openPort ok hptk hgtk hreplay => cases ok <;> exact ⟨hptk, hgtk, hreplay⟩

/-- `ESTABLISHED` is never left: only an answer to message 1 could, and it needs the PTK
not to be in. -/
theorem History.step_stays (hest : sm.state = .established) : sm'.state = .established := by
  rcases h.port_cases with ⟨-, hsame | ⟨-, hfree⟩⟩ | ⟨-, hclosed, -⟩
  · rw [hsame, hest]
  · simp [(hist.established hest).1] at hfree
  · exact absurd hest hclosed

theorem History.step_port :
    (portOpenings (es ++ [e])).length = if sm'.state = .established then 1 else 0 := by
  by_cases hest : sm.state = .established
  · have hstays := hist.step_stays h hest
    rcases h.port_cases with ⟨hnone, -⟩ | ⟨-, hclosed, -⟩
    · simpa [portOpenings, hnone, hstays, hest] using hist.port
    · exact absurd hest hclosed
  · have hlen := hist.port
    rw [if_neg hest] at hlen
    rcases h.port_cases with ⟨hnone, hsame | ⟨hgot, -⟩⟩ | ⟨hsome, -, hopen⟩
    · simpa [portOpenings, hnone, hsame, hest] using hlen
    · simpa [portOpenings, hnone, hgot] using hlen
    · simpa [portOpenings, hsome, hopen] using hlen

theorem History.step_port_after (pre : List Event) (ok : Bool) (post : List Event)
    (heq : es ++ [e] = pre ++ (⟨.openPort, ok⟩ : Event) :: post) :
    ptkInstalls pre ≠ [] ∧ gtkInstalls pre ≠ [] := by
  rcases List.eq_nil_or_concat' post with rfl | ⟨post, f, rfl⟩
  · -- the port is opened now, and the code asked for both keys
    obtain ⟨rfl, hlast⟩ := List.append_inj' heq rfl
    obtain rfl := List.singleton_inj.mp hlast
    cases h with
    | openPort _ hptk hgtk =>
      exact ⟨hist.ptkInstalls_ne_nil hptk, hist.gtkInstalls_ne_nil hgtk⟩
  · rw [← List.cons_append, ← List.append_assoc] at heq
    exact hist.port_after pre ok post (List.append_inj' heq rfl).1

theorem History.step : History (es ++ [e]) sm' where
  ptk := hist.step_ptk h
  gtk_last := hist.step_gtk_last h
  gtk_chain := hist.step_gtk_chain h
  port := hist.step_port h
  port_after := hist.step_port_after h
  established := hist.step_established h

end Step

theorem History.moves {es fs : List Event} {sm sm' : Wpa2Sm} (hist : History es sm)
    (h : Moves sm fs sm') : History (es ++ fs) sm' := by
  induction h generalizing es with
  | nil => rwa [List.append_nil]
  | cons hfirst _ ih =>
    have hnext := ih (hist.step hfirst)
    rwa [List.append_assoc, List.singleton_append] at hnext

/-- `ESTABLISHED` is never left. -/
theorem History.moves_stays {es fs : List Event} {sm sm' : Wpa2Sm} (hist : History es sm)
    (h : Moves sm fs sm') (hest : sm.state = .established) : sm'.state = .established := by
  induction h generalizing es with
  | nil => exact hest
  | cons hfirst _ ih => exact ih (hist.step hfirst) (hist.step_stays hfirst hest)

theorem Moves.keys_fixed {es : List Event} {sm sm' : Wpa2Sm} (h : Moves sm es sm')
    (hptk : sm.ptkInstalled = true) :
    sm'.ptk = sm.ptk ∧ sm'.anonce = sm.anonce ∧ sm'.snonce = sm.snonce := by
  induction h with
  | nil => exact ⟨rfl, rfl, rfl⟩
  | cons hfirst _ ih =>
    obtain ⟨hp, ha, hs⟩ := hfirst.keys_fixed hptk
    obtain ⟨hp', ha', hs'⟩ := ih (hfirst.flags.1 hptk)
    exact ⟨hp'.trans hp, ha'.trans ha, hs'.trans hs⟩

/-! ## Frames as moves -/

theorem takeAnonce_moves {sm sm₁ : Wpa2Sm} {anonce : Octets 32} {es : List Event}
    (hfree : sm.ptkInstalled = false) (h : Performs (takeAnonce sm anonce) es sm₁) :
    Moves sm es sm₁ ∧ sm₁.ptkInstalled = false := by
  rcases performs_takeAnonce h with ⟨-, -, rfl, rfl⟩ | ⟨-, snonce, rfl, rfl⟩
  · exact ⟨.nil _, hfree⟩
  · exact ⟨(Move.draw sm anonce snonce hfree).single, hfree⟩

theorem Outcome.moves {sm sm' : Wpa2Sm} {frame : List UInt8} {es : List Event} {r : Wpa2Result}
    (h : Outcome sm frame es r sm') : Moves sm es sm' := by
  cases h with
  | quiet => exact .nil _
  | answered k fs sm₁ sent _ hfree htake =>
    obtain ⟨hmoves, hfree₁⟩ := takeAnonce_moves hfree htake
    exact hmoves.append (Move.answer sm₁ k.replay sent hfree₁).single
  | accepted k keyInfo sent fs _ _ _ _ hinfo hphase =>
    exact .cons (Move.confirm sm keyInfo k.replay sent hinfo) hphase.moves

theorem Outcome.opened {sm sm' : Wpa2Sm} {frame : List UInt8} {es : List Event}
    (h : Outcome sm frame es .done sm') : (⟨.openPort, true⟩ : Event) ∈ es := by
  generalize hr : Wpa2Result.done = r at h
  cases h with
  | quiet _ hquiet => rcases hquiet with rfl | rfl <;> simp at hr
  | answered _ _ _ sent => cases sent <;> simp at hr
  | accepted _ _ _ fs _ _ _ _ _ hphase => exact List.mem_cons_of_mem _ (hphase.opened hr.symm)

theorem Reaches.moves {start sm : Wpa2Sm} {ts : List Step} (h : Reaches start ts sm) :
    Moves start (runEvents ts) sm := by
  induction h with
  | refl => exact .nil _
  | step _ hout ih =>
    have happ := ih.append hout.moves
    simpa [runEvents] using happ

/-! ## Accepted frames -/

/-- Message 4 and group message 2, told apart by the key information they carry. -/
def Event.IsConfirmation : Event → Prop
  | ⟨.send eapol, _⟩ => be16 eapol 5 = keyInfoMsg4 ∨ be16 eapol 5 = keyInfoGroupMsg2
  | _ => False

/-- The frame of this step was accepted: it was confirmed, or it had a key installed or the
port opened. -/
def Step.IsAccepting (t : Step) : Prop := ∃ e ∈ t.events, e.IsKeyOp ∨ e.IsConfirmation

/-- The replay counter of a frame, as a number. -/
def replayCounter (frame : List UInt8) : ℕ := beValue (slice frame 9 8)

theorem be16_signed (f : KeyFrame) (key : Octets 16) : be16 (f.signed key) 5 = f.keyInfo := by
  have h := be16_keyInfo f (f.mic key) []
  rwa [List.append_nil] at h

theorem not_isConfirmation_message2 (sm : Wpa2Sm) (replay : Octets 8) (sent : Bool) :
    ¬Event.IsConfirmation ⟨.send (message2 sm replay), sent⟩ := by
  intro h
  change be16 (message2 sm replay) 5 = keyInfoMsg4 ∨
    be16 (message2 sm replay) 5 = keyInfoGroupMsg2 at h
  rw [message2, be16_signed] at h
  revert h
  change ¬((keyInfoMsg2 : UInt16) = keyInfoMsg4 ∨ (keyInfoMsg2 : UInt16) = keyInfoGroupMsg2)
  decide

theorem isConfirmation_confirmation (sm : Wpa2Sm) {keyInfo : UInt16} (replay : Octets 8)
    (sent : Bool) (hinfo : keyInfo = keyInfoMsg4 ∨ keyInfo = keyInfoGroupMsg2) :
    Event.IsConfirmation ⟨.send (confirmation sm keyInfo replay), sent⟩ := by
  change be16 (confirmation sm keyInfo replay) 5 = keyInfoMsg4 ∨
    be16 (confirmation sm keyInfo replay) 5 = keyInfoGroupMsg2
  rwa [confirmation, be16_signed]

theorem Move.replay_of_keyOp {sm sm' : Wpa2Sm} {e : Event} (h : Move sm e sm')
    (hkey : e.IsKeyOp) : sm'.replay = sm.replay ∧ sm'.haveReplay = sm.haveReplay := by
  cases h with
  | draw | answer | confirm => exact hkey.elim
  | installPtk ok | installGtk _ _ ok | openPort ok => cases ok <;> exact ⟨rfl, rfl⟩

theorem Moves.replay_of_keyOps {sm sm' : Wpa2Sm} {es : List Event} (h : Moves sm es sm')
    (hkeys : ∀ e ∈ es, Event.IsKeyOp e) :
    sm'.replay = sm.replay ∧ sm'.haveReplay = sm.haveReplay := by
  induction h with
  | nil => exact ⟨rfl, rfl⟩
  | cons hfirst _ ih =>
    obtain ⟨hr, hh⟩ := hfirst.replay_of_keyOp (hkeys _ (by simp))
    obtain ⟨hr', hh'⟩ := ih fun e he => hkeys e (by simp [he])
    exact ⟨hr'.trans hr, hh'.trans hh⟩

/-- An accepted frame was authentic, and its counter is the new baseline. -/
theorem Outcome.accepting {sm sm' : Wpa2Sm} {frame : List UInt8} {es : List Event}
    {r : Wpa2Result} (h : Outcome sm frame es r sm')
    (hacc : ∃ e ∈ es, e.IsKeyOp ∨ e.IsConfirmation) :
    ∃ k, wpa2EapolParse frame = some k ∧ Authentic sm k frame ∧ sm'.replay = k.replay ∧
      sm'.haveReplay = true := by
  obtain ⟨e, he, hkind⟩ := hacc
  cases h with
  | quiet => simp at he
  | answered k fs sm₁ sent _ _ htake =>
    -- neither the random bytes nor message 2 are a key operation or a confirmation
    exfalso
    rcases List.mem_append.mp he with hdraw | hsend
    · rcases performs_takeAnonce htake with ⟨-, -, rfl, -⟩ | ⟨-, snonce, rfl, -⟩
      · simp at hdraw
      · obtain rfl := List.mem_singleton.mp hdraw
        exact hkind.elim id id
    · obtain rfl := List.mem_singleton.mp hsend
      exact hkind.elim id (not_isConfirmation_message2 _ _ _)
  | accepted k _ _ _ _ _ hparse hauth _ hphase =>
    obtain ⟨hr, hh⟩ := hphase.moves.replay_of_keyOps hphase.keyOps
    exact ⟨k, hparse, hauth, hr, hh⟩

/-- Every other frame leaves the baseline alone. -/
theorem Outcome.not_accepting {sm sm' : Wpa2Sm} {frame : List UInt8} {es : List Event}
    {r : Wpa2Result} (h : Outcome sm frame es r sm')
    (hacc : ¬∃ e ∈ es, e.IsKeyOp ∨ e.IsConfirmation) :
    sm'.replay = sm.replay ∧ sm'.haveReplay = sm.haveReplay := by
  cases h with
  | quiet => exact ⟨rfl, rfl⟩
  | answered k fs sm₁ sent _ _ htake =>
    rcases performs_takeAnonce htake with ⟨-, -, -, rfl⟩ | ⟨-, snonce, -, rfl⟩ <;>
      cases sent <;> exact ⟨rfl, rfl⟩
  | accepted k _ sent _ _ _ _ _ hinfo =>
    exact absurd ⟨_, by simp, .inr (isConfirmation_confirmation sm k.replay sent hinfo)⟩ hacc

/-- The baseline is the largest counter of the frames accepted so far. -/
def Baseline (ts : List Step) (sm : Wpa2Sm) : Prop :=
  ∀ t ∈ ts, t.IsAccepting →
    sm.haveReplay = true ∧ replayCounter t.frame ≤ beValue sm.replay.val

/-- An accepted frame has a larger counter than all accepted before. -/
theorem Baseline.lt {ts : List Step} {sm : Wpa2Sm} {frame : List UInt8} {k : EapolKey}
    (h : Baseline ts sm) (hparse : wpa2EapolParse frame = some k)
    (hauth : Authentic sm k frame) {u : Step} (hu : u ∈ ts) (hacc : u.IsAccepting) :
    replayCounter u.frame < replayCounter frame := by
  obtain ⟨hhave, hle⟩ := h u hu hacc
  have hgt : memcmp k.replay.val sm.replay.val = .gt := by
    simpa [replayOk, hhave] using hauth.2
  have hlt := (memcmp_gt_iff (k.replay.property.trans sm.replay.property.symm)).mp hgt
  rw [(wpa2EapolParse_some hparse).1] at hlt
  exact lt_of_le_of_lt hle hlt

theorem Reaches.baseline {start sm : Wpa2Sm} {ts : List Step} (h : Reaches start ts sm) :
    Baseline ts sm := by
  induction h with
  | refl => simp [Baseline]
  | @step ts t _ hout ih =>
    by_cases hacc : t.IsAccepting
    · obtain ⟨k, hparse, hauth, hreplay, hhave⟩ := hout.accepting hacc
      have hcounter : replayCounter t.frame = beValue t.after.replay.val := by
        rw [hreplay, (wpa2EapolParse_some hparse).1, replayCounter]
      intro u hu hu_acc
      refine ⟨hhave, ?_⟩
      rw [← hcounter]
      rcases List.mem_append.mp hu with hold | hnew
      · exact (ih.lt hparse hauth hold hu_acc).le
      · rw [List.mem_singleton.mp hnew]
    · obtain ⟨hreplay, hhave⟩ := hout.not_accepting hacc
      intro u hu hu_acc
      rw [hreplay, hhave]
      rcases List.mem_append.mp hu with hold | hnew
      · exact ih u hold hu_acc
      · rw [List.mem_singleton.mp hnew] at hu_acc
        exact absurd hu_acc hacc

/-! ## Safety of every run -/

/-- The safety of a run after `wpa2_sm_init`. -/
structure SafeRun (ts : List Step) : Prop where
  /-- The PTK is installed at most once. -/
  ptk_once : (ptkInstalls (runEvents ts)).length ≤ 1
  /-- Keys, port and confirmations need a frame whose MIC verifies under the current PTK and
  whose counter is larger than that of every frame accepted before. -/
  guarded : ∀ pre t post, ts = pre ++ t :: post → t.IsAccepting →
    (∃ k, wpa2EapolParse t.frame = some k ∧
      MicVerifies (kck t.before.ptk) (t.frame.take k.frameLen)) ∧
    ∀ u ∈ pre, u.IsAccepting → replayCounter u.frame < replayCounter t.frame
  /-- With the PTK installed, it and both nonces stay. -/
  keys_fixed : ∀ pre t post, ts = pre ++ t :: post → ptkInstalls (runEvents (pre ++ [t])) ≠ [] →
    ∀ u ∈ post, u.after.ptk = t.after.ptk ∧ u.after.anonce = t.after.anonce ∧
      u.after.snonce = t.after.snonce
  /-- `ESTABLISHED` means that the keys and a counter are there, and it is never left. -/
  established : ∀ t ∈ ts,
    (t.after.state = .established → t.after.ptkInstalled = true ∧ t.after.gtkInstalled = true ∧
      t.after.haveReplay = true) ∧
    (t.before.state = .established → t.after.state = .established)
  /-- The port is opened after both keys were installed, and `DONE` is reported once. -/
  port : (∀ pre ok post, runEvents ts = pre ++ (⟨.openPort, ok⟩ : Event) :: post →
      ptkInstalls pre ≠ [] ∧ gtkInstalls pre ≠ []) ∧
    (ts.filter fun t => t.result = .done).length ≤ 1
  /-- No GTK is installed twice in a row under one key id. -/
  gtk_once : (gtkInstalls (runEvents ts)).IsChain (· ≠ ·)

/-- A history from the initial state describes the state it leads to. -/
theorem Reaches.history {pmk : Octets 32} {aa spa : Octets 6} {ts : List Step} {sm : Wpa2Sm}
    (h : Reaches (wpa2SmInit pmk aa spa) ts sm) : History (runEvents ts) sm := by
  have hist := (history_init pmk aa spa).moves h.moves
  rwa [List.nil_append] at hist

/-- Every `DONE` comes with a port that was opened. -/
theorem Reaches.done_le {start sm : Wpa2Sm} {ts : List Step} (h : Reaches start ts sm) :
    (ts.filter fun t => t.result = .done).length ≤ (portOpenings (runEvents ts)).length := by
  induction h with
  | refl => simp
  | @step ts t _ hout ih =>
    have happ : portOpenings (runEvents (ts ++ [t])) =
        portOpenings (runEvents ts) ++ portOpenings t.events := by
      simp [portOpenings, runEvents]
    rw [happ, List.filter_append, List.length_append, List.length_append]
    by_cases hdone : t.result = .done
    · rw [hdone] at hout
      have hmem : () ∈ portOpenings t.events := List.mem_filterMap.mpr ⟨_, hout.opened, rfl⟩
      have hpos := List.length_pos_of_mem hmem
      have hone : ([t].filter fun t => t.result = .done).length = 1 := by simp [hdone]
      omega
    · have hzero : ([t].filter fun t => t.result = .done).length = 0 := by simp [hdone]
      omega

theorem Reaches.mem_after {start sm : Wpa2Sm} {ts : List Step} (h : Reaches start ts sm)
    {u : Step} (hu : u ∈ ts) : ∃ es, Moves start es u.after := by
  obtain ⟨pre, post, rfl⟩ := List.append_of_mem hu
  rw [← List.singleton_append, ← List.append_assoc] at h
  obtain ⟨mid, hpre, -⟩ := h.split
  obtain rfl := hpre.last.2.2
  exact ⟨_, hpre.moves⟩

section Safe

variable {pmk : Octets 32} {aa spa : Octets 6} {ts : List Step} {sm : Wpa2Sm}
  (h : Reaches (wpa2SmInit pmk aa spa) ts sm)

include h

theorem Reaches.guarded {pre post : List Step} {t : Step} (hts : ts = pre ++ t :: post)
    (hacc : t.IsAccepting) :
    (∃ k, wpa2EapolParse t.frame = some k ∧
      MicVerifies (kck t.before.ptk) (t.frame.take k.frameLen)) ∧
    ∀ u ∈ pre, u.IsAccepting → replayCounter u.frame < replayCounter t.frame := by
  rw [hts, ← List.singleton_append, ← List.append_assoc] at h
  obtain ⟨mid, hpre, -⟩ := h.split
  obtain ⟨hbefore, hout, -⟩ := hpre.last
  obtain ⟨k, hparse, hauth, -, -⟩ := hout.accepting hacc
  obtain ⟨-, -, hmin, hlen⟩ := wpa2EapolParse_some hparse
  have hmic := (wpa2EapolMicOk_iff _ hmin hlen).mp hauth.1
  exact ⟨⟨k, hparse, hmic⟩, fun u hu hu_acc => hbefore.baseline.lt hparse hauth hu hu_acc⟩

theorem Reaches.keys_fixed {pre post : List Step} {t : Step} (hts : ts = pre ++ t :: post)
    (hptk : ptkInstalls (runEvents (pre ++ [t])) ≠ []) (u : Step) (hu : u ∈ post) :
    u.after.ptk = t.after.ptk ∧ u.after.anonce = t.after.anonce ∧
      u.after.snonce = t.after.snonce := by
  rw [hts, ← List.singleton_append, ← List.append_assoc] at h
  obtain ⟨mid, hpre, hpost⟩ := h.split
  obtain rfl := hpre.last.2.2
  have hflag : t.after.ptkInstalled = true := by
    have hlen := hpre.history.ptk
    have hpos := List.length_pos_iff.mpr hptk
    by_contra hfree
    rw [if_neg hfree] at hlen
    omega
  obtain ⟨es, hmoves⟩ := hpost.mem_after hu
  exact hmoves.keys_fixed hflag

theorem Reaches.established {t : Step} (ht : t ∈ ts) :
    (t.after.state = .established → t.after.ptkInstalled = true ∧ t.after.gtkInstalled = true ∧
      t.after.haveReplay = true) ∧
    (t.before.state = .established → t.after.state = .established) := by
  obtain ⟨pre, post, rfl⟩ := List.append_of_mem ht
  rw [← List.singleton_append, ← List.append_assoc] at h
  obtain ⟨mid, hpre, -⟩ := h.split
  obtain ⟨hbefore, hout, rfl⟩ := hpre.last
  exact ⟨hpre.history.established, hbefore.history.moves_stays hout.moves⟩

theorem Reaches.safe : SafeRun ts where
  ptk_once := by
    rw [h.history.ptk]
    split_ifs <;> omega
  guarded _ _ _ hts hacc := h.guarded hts hacc
  keys_fixed _ _ _ hts hptk := h.keys_fixed hts hptk
  established _ ht := h.established ht
  port := by
    refine ⟨h.history.port_after, h.done_le.trans ?_⟩
    rw [h.history.port]
    split_ifs <;> omega
  gtk_once := h.history.gtk_chain

end Safe

/-- Whatever is received and whatever the ops answer, a run is safe. -/
theorem wpa2Sm_safe (h : Handler Op Op.Answer σ) (s : σ) (pmk : Octets 32) (aa spa : Octets 6)
    (frames : List (List UInt8)) : SafeRun (smRun h frames (wpa2SmInit pmk aa spa) s).1 :=
  (smRun_reaches h (wpa2SmInit pmk aa spa) frames s).safe

/-! ## Ignored frames -/

theorem Outcome.ignored {sm sm' : Wpa2Sm} {frame : List UInt8} {es : List Event}
    (h : Outcome sm frame es .ignored sm') : es = [] ∧ sm' = sm := by
  generalize hr : Wpa2Result.ignored = r at h
  cases h with
  | quiet => exact ⟨rfl, rfl⟩
  | answered _ _ _ sent => cases sent <;> simp at hr
  | accepted _ _ _ _ _ _ _ _ _ hphase => exact absurd hr.symm hphase.not_ignored

theorem smStep_ignored (h : Handler Op Op.Answer σ) {sm : Wpa2Sm} {frame : List UInt8} {s : σ}
    (hr : (smStep h sm frame s).1.result = .ignored) :
    (smStep h sm frame s).1.events = [] ∧ (smStep h sm frame s).1.after = sm ∧
      (smStep h sm frame s).2 = s := by
  have hout := smStep_outcome h sm frame s
  rw [hr] at hout
  obtain ⟨hevents, hsame⟩ := hout.ignored
  exact ⟨hevents, hsame, run_snd_of_events_nil hevents⟩

/-- An ignored frame changes nothing and calls no op, so a run without the ignored frames
takes the same other steps and ends in the same states. -/
theorem wpa2Sm_ignored (h : Handler Op Op.Answer σ) :
    (∀ sm frame s, (smStep h sm frame s).1.result = .ignored →
      (smStep h sm frame s).1.after = sm ∧ (smStep h sm frame s).1.events = []) ∧
    ∀ frames sm s,
      let kept := (smRun h frames sm s).1.filter fun t => t.result ≠ .ignored
      smRun h (kept.map Step.frame) sm s = (kept, (smRun h frames sm s).2) := by
  refine ⟨fun sm frame s hr => ?_, fun frames => ?_⟩
  · obtain ⟨hevents, hsame, -⟩ := smStep_ignored h hr
    exact ⟨hsame, hevents⟩
  · induction frames with
    | nil => exact fun sm s => rfl
    | cons frame frames ih =>
      intro sm s
      rw [smRun_cons]
      by_cases hr : (smStep h sm frame s).1.result = .ignored
      · obtain ⟨-, hsame, hops⟩ := smStep_ignored h hr
        rw [List.filter_cons_of_neg (by simp [hr]), hsame, hops]
        exact ih sm s
      · have hrest := ih (smStep h sm frame s).1.after (smStep h sm frame s).2
        have hframe : (smStep h sm frame s).1.frame = frame := rfl
        dsimp only at hrest ⊢
        rw [List.filter_cons_of_pos (by simp [hr]), List.map_cons, hframe, smRun_cons, hrest]

end BekenCam.Wpa2
