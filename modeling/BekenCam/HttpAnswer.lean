import BekenCam.HttpDiscipline
import BekenCam.HttpLimits

/-!
# Whether a request is answered

What the setters leave behind decides the head. The first body that is accepted formats it, and marks
it as sent before it is known to fit its buffer; the final rejection does nothing after that. So a
request is answered exactly when that head fits.
-/
namespace BekenCam.Http

/-! ## What a handler sets up -/

namespace Setup

variable (s : Setup)

/-- What a connection starts with. -/
def start : Setup := ⟨200, none, none, .auto, 0⟩

/-- An empty reply with just a status. -/
def reply (status : ℤ) : Setup := ⟨status, none, none, .auto, 0⟩

/-- The head and a NUL fit the buffer. -/
def Fits : Prop := s.headText.length < headerBufSize

instance : Decidable s.Fits := inferInstanceAs (Decidable (_ < _))

def call : Response.Call → Setup
  | .setStatus status => if status < 100 ∨ 599 < status then s else { s with status := status }
  | .setContentType contentType => { s with contentType := contentType }
  | .setContentEncoding contentEncoding => { s with contentEncoding := contentEncoding }
  | .setContentLength length => { s with lengthMode := .fixed, length := length }
  | .omitContentLength => { s with lengthMode := .none }
  | .setMore _ | .respondBinary _ | .respondString _ => s

/-- A body that is there and does not exceed the length that was set. -/
def Accepts (body : Body) : Prop :=
  ¬(body.data = none ∧ 0 < body.length) ∧ ¬(s.lengthMode = .fixed ∧ s.length < body.length)

instance (body : Body) : Decidable (s.Accepts body) :=
  inferInstanceAs (Decidable (¬(_ ∧ _) ∧ ¬(_ ∧ _)))

/-- With no length set the first body decides it. -/
def withBody (length : UInt32) : Setup :=
  if s.lengthMode = .auto then { s with length := length } else s

/-- The set-up of the head that these calls send first. -/
def firstHead : Setup → List Response.Call → Option Setup
  | _, [] => none
  | s, c :: cs =>
    match c.body with
    | none => firstHead (s.call c) cs
    | some body => if s.Accepts body then some (s.withBody body.length) else firstHead s cs

end Setup

namespace Response

variable {r : Response} {s : Setup}

/-! ## Before the head -/

/-- Nothing was accepted yet, and this is set up. -/
structure Fresh (r : Response) (s : Setup) : Prop where
  inv : r.Inv
  unsent : r.headersSent = false
  setup : r.setup = s

namespace Fresh

/-- A server that is not stopped leaves the response alive. -/
theorem alive (h : r.Fresh s) (hstop : r.wire.stop = none) : ¬r.Dead := by
  rintro (hfailed | hstopping)
  · rw [(h.inv.fresh h.unsent).2.1] at hfailed
    cases hfailed
  · obtain ⟨stop, hstop', -⟩ := stopping_iff.mp hstopping
    rw [hstop] at hstop'
    cases hstop'

theorem refuses_iff (h : r.Fresh s) (body : Body) : r.Refuses body ↔ r.Dead ∨ ¬s.Accepts body := by
  obtain ⟨-, -, hopen, hfixed⟩ := h.inv.fresh h.unsent
  obtain rfl := h.setup
  unfold Refuses Setup.Accepts Response.setup
  constructor
  · rintro (hdead | hsealed | hnull | ⟨hmode, hless⟩)
    · exact .inl hdead
    · exact absurd hsealed hopen
    · exact .inr fun haccepts => haccepts.1 hnull
    · rw [hfixed hmode] at hless
      exact .inr fun haccepts => haccepts.2 ⟨hmode, hless⟩
  · rintro (hdead | hnot)
    · exact .inl hdead
    by_cases hnull : body.data = none ∧ 0 < body.length
    · exact .inr (.inr (.inl hnull))
    · by_cases hlength : r.lengthMode = .fixed ∧ r.length < body.length
      · rw [← hfixed hlength.1] at hlength
        exact .inr (.inr (.inr hlength))
      · exact absurd ⟨hnull, hlength⟩ hnot

/-- A setter sets what it says. -/
theorem setter (h : r.Fresh s) {c : Call} (hc : c.body = none) : (r.call c).2.Fresh (s.call c) := by
  have hinv := call_inv h.inv c
  have hunsent := h.unsent
  obtain rfl := h.setup
  cases c with
  | respondBinary body | respondString body => cases hc
  | setMore more => exact ⟨hinv, hunsent, rfl⟩
  | setStatus status =>
    refine ⟨hinv, ?_, ?_⟩
    · simp only [call, setStatus, hunsent, Bool.false_or]
      split_ifs
      · exact hunsent
      · rfl
    · simp only [call, setStatus, hunsent, Bool.false_or, Bool.or_eq_true, decide_eq_true_eq,
        Setup.call]
      split_ifs
      · rfl
      · rfl
  | setContentType contentType =>
    have hset : r.call (.setContentType contentType) =
        (true, { r with contentType := contentType }) := by simp [call, setContentType, hunsent]
    rw [hset] at hinv ⊢
    exact ⟨hinv, hunsent, rfl⟩
  | setContentEncoding contentEncoding =>
    have hset : r.call (.setContentEncoding contentEncoding) =
        (true, { r with contentEncoding := contentEncoding }) := by
      simp [call, setContentEncoding, hunsent]
    rw [hset] at hinv ⊢
    exact ⟨hinv, hunsent, rfl⟩
  | setContentLength length =>
    have hset : r.call (.setContentLength length) =
        (true, { r with lengthMode := .fixed, length := length, remaining := length }) := by
      simp [call, setContentLength, hunsent]
    rw [hset] at hinv ⊢
    exact ⟨hinv, hunsent, rfl⟩
  | omitContentLength =>
    have hset : r.call .omitContentLength = (true, { r with lengthMode := .none }) := by
      simp [call, omitContentLength, hunsent]
    rw [hset] at hinv ⊢
    exact ⟨hinv, hunsent, rfl⟩

theorem refused (h : r.Fresh s) {c : Call} {body : Body} (hc : c.body = some body)
    (hrefuses : r.Refuses body) : (r.call c).2.Fresh s := by
  rw [call_body hc]
  rcases respondBinary_refused hrefuses with hr | hr
  · rw [hr]
    exact h
  · rw [hr]
    exact ⟨h.inv.tick, h.unsent, h.setup⟩

end Fresh

/-! ## Pieces only get more -/

theorem sendBody_extends (r : Response) (body : Body) :
    r.wire.handed <+: (r.sendBody body).2.wire.handed := by
  obtain ⟨hwire, -, -⟩ := r.spend_wire body.length
  rcases r.sendBody_cases body with ⟨-, r', rfl | rfl, hsend⟩ | ⟨-, -, hsend⟩ | ⟨-, -, ok, hsend⟩
  · rw [hsend, sealLength_wire.1, hwire]
  · rw [hsend, sealLength_wire.1]
    change r.wire.handed <+: (r.spend body.length).wire.handed
    rw [hwire]
  · rw [hsend, sealLength_wire.1]
    change r.wire.handed <+: (r.spend body.length).wire.handed
    rw [hwire]
  · rw [hsend, sealLength_wire.1]
    change r.wire.handed <+: (r.spend body.length).wire.handed ++ _
    rw [hwire]
    exact List.prefix_append _ _

theorem sendHeaders_extends (r : Response) (more : Bool) :
    r.wire.handed <+: (r.sendHeaders more).2.wire.handed := by
  rcases r.sendHeaders_cases more with ⟨r', hsend, -, -, hwire | hwire⟩ | ⟨-, ok, buf, -, hsend⟩
  · rw [hsend, hwire]
  · rw [hsend, hwire]
    exact List.prefix_refl _
  · rw [hsend]
    exact List.prefix_append _ _

theorem respondBinary_extends (r : Response) (body : Body) :
    r.wire.handed <+: (r.respondBinary body).2.wire.handed := by
  by_cases hrefuses : r.Refuses body
  · rcases respondBinary_refused hrefuses with hr | hr
    · rw [hr]
    · rw [hr]
      exact List.prefix_refl _
  · have hdecided : (r.tick.decideLength body.length).wire.handed = r.wire.handed := by
      rw [(r.tick.decideLength_wire body.length).1]
      rfl
    rw [respondBinary_taken hrefuses, ← hdecided]
    dsimp only
    split_ifs
    · exact sendBody_extends _ body
    · exact (sendHeaders_extends _ _).trans (sendBody_extends _ body)
    · exact sendHeaders_extends _ _

/-- A call without a body hands nothing over. -/
theorem call_handed {c : Call} (hc : c.body = none) :
    (r.call c).2.wire.handed = r.wire.handed := by
  cases c with
  | respondBinary | respondString => cases hc
  | setMore => rfl
  | setStatus | setContentType | setContentEncoding | setContentLength | omitContentLength =>
    simp only [call, setStatus, setContentType, setContentEncoding, setContentLength,
      omitContentLength]
    split_ifs <;> rfl

theorem call_extends (r : Response) (c : Call) : r.wire.handed <+: (r.call c).2.wire.handed := by
  cases hbody : c.body with
  | some body =>
    rw [call_body hbody]
    exact r.respondBinary_extends body
  | none => rw [call_handed hbody]

theorem calls_extends (r : Response) (cs : List Call) :
    r.wire.handed <+: (r.calls cs).wire.handed := by
  induction cs generalizing r with
  | nil => exact List.prefix_refl _
  | cons c cs ih => exact (r.call_extends c).trans (ih _)

theorem reject_extends (r : Response) (status : ℤ) :
    r.wire.handed <+: (r.reject status).wire.handed := by
  unfold reject
  split_ifs
  · exact List.prefix_refl _
  · refine List.IsPrefix.trans ?_ (respondBinary_extends _ ⟨0, none⟩)
    exact List.prefix_refl _

/-! ## The head -/

/-- This head went out first. -/
def Headed (r : Response) (s : Setup) : Prop :=
  ∃ head, [head] <+: r.wire.handed ∧ head.part = .head s.declared ∧ head.data = s.headText

theorem Headed.mono {r' : Response} (h : r.Headed s) (hextends : r.wire.handed <+: r'.wire.handed) :
    r'.Headed s := by
  obtain ⟨head, hhead, hpart, hdata⟩ := h
  exact ⟨head, hhead.trans hextends, hpart, hdata⟩

theorem sendHeaders_fits (halive : ¬r.Dead) (hnone : r.wire.handed = []) (h : r.setup.Fits)
    (more : Bool) : ∃ head, (r.sendHeaders more).2.wire.handed = [head] ∧
      head.part = .head r.setup.declared ∧ head.data = r.setup.headText := by
  have hformat : r.formatHead = some r.setup.headText := (formatHead_eq r).trans (if_pos h)
  unfold sendHeaders
  rw [hformat]
  dsimp only
  rcases sendRaw_cases { r with headersSent := true } (.head r.declared) r.setup.headText more with
    ⟨hdead, -⟩ | ⟨-, hdata, -⟩ | ⟨-, -, ok, hsend⟩
  · exact absurd hdead halive
  · exact absurd hdata (formatHead_ne_nil hformat)
  · rw [hsend]
    refine ⟨⟨.head r.declared, r.setup.headText, more, r.tick.wire.now⟩, ?_, rfl, rfl⟩
    change r.wire.handed ++ [_] = _
    rw [hnone]
    rfl

/-- A head that does not fit: the response is dead, and nothing went out. -/
theorem sendHeaders_unfit (h : ¬r.setup.Fits) (more : Bool) : r.sendHeaders more =
    (false, { r with headersSent := true, failed := true }) := by
  have hformat : r.formatHead = none := (formatHead_eq r).trans (if_neg h)
  unfold sendHeaders
  rw [hformat]

theorem sendBody_empty {body : Body} (h : body.bytes = []) :
    (r.sendBody body).2.wire.handed = r.wire.handed := by
  obtain ⟨hwire, -, -⟩ := r.spend_wire body.length
  rcases r.sendBody_cases body with ⟨-, r', rfl | rfl, hsend⟩ | ⟨-, -, hsend⟩ | ⟨-, hdata, -⟩
  · rw [hsend, sealLength_wire.1, hwire]
  · rw [hsend, sealLength_wire.1]
    change (r.spend body.length).wire.handed = _
    rw [hwire]
  · rw [hsend, sealLength_wire.1]
    change (r.spend body.length).wire.handed = _
    rw [hwire]
  · exact absurd h hdata

theorem decideLength_setup (r : Response) (length : UInt32) :
    (r.tick.decideLength length).setup = r.setup.withBody length := by
  have hmode : r.tick.lengthMode = r.setup.lengthMode := rfl
  unfold decideLength Setup.withBody
  rw [hmode]
  split_ifs
  · rfl
  · rfl

/-- The first body that is accepted sends the head, or kills the response. -/
theorem Fresh.accepted (h : r.Fresh s) (hstop : r.wire.stop = none) {body : Body}
    (haccepts : s.Accepts body) :
    ((s.withBody body.length).Fits → (r.respondBinary body).2.Headed (s.withBody body.length) ∧
      (body.bytes = [] → (r.respondBinary body).2.wire.handed.length = 1)) ∧
    (¬(s.withBody body.length).Fits →
      (r.respondBinary body).2.Dead ∧ (r.respondBinary body).2.wire.handed = []) := by
  have htaken : ¬r.Refuses body := fun hrefuses =>
    ((h.refuses_iff body).mp hrefuses).elim (h.alive hstop) fun hnot => hnot haccepts
  obtain ⟨hwire, -, hfailed⟩ := r.tick.decideLength_wire body.length
  have hnone : (r.tick.decideLength body.length).wire.handed = [] := by
    rw [hwire]
    exact (h.inv.fresh h.unsent).1
  have halive : ¬(r.tick.decideLength body.length).Dead := by
    have htick : r.tick.Fresh s := ⟨h.inv.tick, h.unsent, h.setup⟩
    exact fun hdead => htick.alive hstop (hdead.congr hwire.symm hfailed.symm)
  rw [respondBinary_taken htaken, h.unsent, if_neg Bool.false_ne_true, ← h.setup,
    ← decideLength_setup]
  dsimp only
  refine ⟨fun hfits => ?_, fun hunfit => ?_⟩
  · obtain ⟨head, hhanded, hpart, hdata⟩ :=
      sendHeaders_fits halive hnone hfits (decide (0 < body.length) || r.more)
    split_ifs
    · refine ⟨⟨head, ?_, hpart, hdata⟩, fun hempty => ?_⟩
      · rw [← hhanded]
        exact sendBody_extends _ body
      · rw [sendBody_empty hempty, hhanded]
        rfl
    · refine ⟨⟨head, ?_, hpart, hdata⟩, fun _ => ?_⟩
      · rw [hhanded]
      · rw [hhanded]
        rfl
  · rw [sendHeaders_unfit hunfit, if_neg Bool.false_ne_true]
    exact ⟨.inl rfl, hnone⟩

/-- The calls of a handler come to a response that nothing was accepted for, or they met the first
body that is accepted. -/
theorem Fresh.reach (h : r.Fresh s) (cs : List Call) :
    match s.firstHead cs with
    | none => ∃ s', (r.calls cs).Fresh s'
    | some s' => ∃ (r₀ : Response) (s₀ : Setup) (body : Body) (rest : List Call), r₀.Fresh s₀ ∧
        r₀.wire.stop = r.wire.stop ∧ s₀.Accepts body ∧
        s' = s₀.withBody body.length ∧ r.calls cs = (r₀.respondBinary body).2.calls rest := by
  induction cs generalizing r s with
  | nil => exact ⟨s, h⟩
  | cons c cs ih =>
    have hstop := r.call_stop c
    have hcalls : r.calls (c :: cs) = (r.call c).2.calls cs := rfl
    rw [hcalls, ← hstop]
    cases hbody : c.body with
    | none =>
      simp only [Setup.firstHead, hbody]
      exact ih (h.setter hbody)
    | some body =>
      simp only [Setup.firstHead, hbody]
      split_ifs with haccepts
      · exact ⟨r, s, body, cs, h, hstop.symm, haccepts, rfl, by rw [call_body hbody]⟩
      · exact ih (h.refused hbody ((h.refuses_iff body).mpr (.inr haccepts)))

/-- On a server that is not stopped the first head decides. -/
theorem Fresh.calls (h : r.Fresh s) (hstop : r.wire.stop = none) (cs : List Call) :
    match s.firstHead cs with
    | none => ∃ s', (r.calls cs).Fresh s'
    | some s' => (s'.Fits → (r.calls cs).Headed s') ∧
        (¬s'.Fits → (r.calls cs).Dead ∧ (r.calls cs).wire.handed = []) := by
  have hreach := h.reach cs
  cases hfirst : s.firstHead cs with
  | none =>
    rw [hfirst] at hreach
    exact hreach
  | some s' =>
    rw [hfirst] at hreach
    obtain ⟨r₀, s₀, body, rest, hfresh, hsame, haccepts, rfl, hcalls⟩ := hreach
    obtain ⟨hfits, hunfit⟩ := hfresh.accepted (hsame.trans hstop) haccepts
    rw [hcalls]
    refine ⟨fun hs => (hfits hs).1.mono (calls_extends _ rest), fun hs => ?_⟩
    obtain ⟨hdead, hnone⟩ := hunfit hs
    obtain ⟨hdead', hsame'⟩ := calls_of_dead hdead rest
    exact ⟨hdead', hsame'.trans hnone⟩

/-- What a rejection sends is a response of its own that nothing was accepted for. -/
theorem Fresh.cleared (h : r.Fresh s) (status : ℤ) : ({ r with
    status := status
    contentType := none
    contentEncoding := none
    lengthMode := .auto
    more := false } : Response).Fresh { Setup.reply status with length := r.length } :=
  ⟨h.inv.of_fresh h.unsent rfl rfl rfl nofun nofun, h.unsent, rfl⟩

/-- A rejection of a response that nothing was sent for. -/
theorem Fresh.reject (h : r.Fresh s) (hstop : r.wire.stop = none) {status : ℤ}
    (hfits : (Setup.reply status).Fits) : (r.reject status).Headed (Setup.reply status) ∧
      (r.reject status).wire.handed.length = 1 := by
  have haccepts : ({ Setup.reply status with length := r.length } : Setup).Accepts ⟨0, none⟩ :=
    ⟨fun hnull => absurd hnull.2 (by decide), fun hfixed => by cases hfixed.1⟩
  have hunsent : ¬r.headersSent = true := by
    rw [h.unsent]
    nofun
  obtain ⟨hheaded, hone⟩ := ((h.cleared status).accepted hstop haccepts).1 hfits
  rw [Response.reject, if_neg hunsent]
  exact ⟨hheaded, hone rfl⟩

theorem Headed.headersSent (h : r.Headed s) (hinv : r.Inv) : r.headersSent = true := by
  obtain ⟨head, hhead, -⟩ := h
  by_contra hnot
  rw [(hinv.fresh (Bool.not_eq_true _ ▸ hnot)).1] at hhead
  exact absurd (List.prefix_nil.mp hhead) (List.cons_ne_nil head [])

/-- Behind the head there are bodies only. -/
theorem Headed.out (h : r.Headed s) (hinv : r.Inv) : ∃ head bodies,
    r.wire.handed = head :: bodies ∧ head.part = .head s.declared ∧ head.data = s.headText ∧
      ∀ piece ∈ bodies, piece.part = .body := by
  have hsent := h.headersSent hinv
  obtain ⟨head, ⟨rest, hrest⟩, hpart, hdata⟩ := h
  rcases hinv.out hsent with ⟨hnone, -⟩ | ⟨declared, bodies, hout, -⟩
  · rw [hnone] at hrest
    cases hrest
  · obtain ⟨head', hhanded, -⟩ := hout.handed
    rw [hhanded] at hrest
    obtain ⟨rfl, rfl⟩ := List.cons.inj hrest
    exact ⟨head, _, hhanded, hpart, hdata, hout.bodies⟩

theorem fresh_start (stop : Option ℕ) (taken : ℕ → ℤ) : (start stop taken).Fresh Setup.start :=
  ⟨inv_start stop taken, rfl, rfl⟩

end Response

/-! ## Every request -/

/-- No send of the connection fails: the stack takes every piece as a whole. -/
def SendsSucceed (decision : Decision) (cs : List Response.Call) (taken : ℕ → ℤ) : Prop :=
  ∀ piece ∈ (serve decision cs none taken).wire.handed, taken piece.moment = piece.data.length

instance (decision : Decision) (cs : List Response.Call) (taken : ℕ → ℤ) :
    Decidable (SendsSucceed decision cs taken) :=
  inferInstanceAs (Decidable (∀ piece ∈ _, _))

/-- One whole head went out, and it is the 500 reply when the handler had nothing sent. -/
structure Answered (decision : Decision) (cs : List Response.Call) (taken : ℕ → ℤ) : Prop where
  oneHead : ∃ s head bodies, (serve decision cs none taken).wire.handed = head :: bodies ∧
    head.part = .head (Setup.declared s) ∧ head.data = s.headText ∧
    taken head.moment = head.data.length ∧ ∀ piece ∈ bodies, piece.part = .body
  reply : ∀ request, decision = .handled request →
    ((Response.start none taken).calls cs).wire.handed = [] →
      (serve decision cs none taken).wire.handed.map Sent.data = [(Setup.reply 500).headText]

section

open Response

variable {cs : List Call} {taken : ℕ → ℤ}

theorem answered_of_headed {decision : Decision} {s : Setup}
    (h : (serve decision cs none taken).Headed s)
    (hsends : SendsSucceed decision cs taken)
    (hreply : ∀ request, decision = .handled request →
      ((start none taken).calls cs).wire.handed = [] →
        (serve decision cs none taken).wire.handed.map Sent.data = [(Setup.reply 500).headText]) :
    Answered decision cs taken := by
  obtain ⟨head, bodies, hhanded, hpart, hdata, hbodies⟩ := h.out (serve_inv decision cs none taken)
  refine ⟨⟨s, head, bodies, hhanded, hpart, hdata, hsends head ?_, hbodies⟩, hreply⟩
  rw [hhanded]
  exact List.mem_cons_self

theorem reply_fits {status : ℤ} (h : status = 400 ∨ status = 414 ∨ status = 500) :
    (Setup.reply status).Fits := by
  rcases h with rfl | rfl | rfl
  · decide +kernel
  · decide +kernel
  · decide +kernel

theorem only_of_headed {r : Response} {s : Setup} (h : r.Headed s)
    (hone : r.wire.handed.length = 1) : r.wire.handed.map Sent.data = [s.headText] := by
  obtain ⟨head, hhead, -, hdata⟩ := h
  rw [← hhead.eq_of_length hone.symm, List.map_singleton, hdata]

theorem answered_rejected {status : ℕ} (h : status = 400 ∨ status = 414)
    (hsends : SendsSucceed (.rejected status) cs taken) :
    Answered (.rejected status) cs taken := by
  have hfits : (Setup.reply status).Fits := reply_fits (by omega)
  refine answered_of_headed ((fresh_start none taken).reject rfl hfits).1 hsends fun request hrequest => ?_
  cases hrequest

theorem answered_handled_iff (request : Request)
    (hsends : SendsSucceed (.handled request) cs taken) :
    Answered (.handled request) cs taken ↔ ∀ s, Setup.start.firstHead cs = some s → s.Fits := by
  have hcalls := (fresh_start none taken).calls rfl cs
  have hserve : serve (.handled request) cs none taken =
      ((start none taken).calls cs).reject 500 := rfl
  cases hfirst : Setup.start.firstHead cs with
  | none =>
    rw [hfirst] at hcalls
    obtain ⟨s', hfresh⟩ := hcalls
    obtain ⟨hheaded, hone⟩ := hfresh.reject (calls_stop _ cs) (reply_fits (.inr (.inr rfl)))
    refine iff_of_true ?_ nofun
    exact answered_of_headed hheaded hsends fun _ _ _ => only_of_headed hheaded hone
  | some s =>
    rw [hfirst] at hcalls
    obtain ⟨hfits, hunfit⟩ := hcalls
    by_cases hs : s.Fits
    · have hheaded := hfits hs
      have hserved : (serve (.handled request) cs none taken).Headed s :=
        hheaded.mono (reject_extends _ 500)
      refine iff_of_true ?_ fun s' hs' => Option.some.inj hs' ▸ hs
      refine answered_of_headed hserved hsends fun _ _ hnone => ?_
      obtain ⟨head, hhead, -⟩ := hheaded
      rw [hnone] at hhead
      exact absurd (List.prefix_nil.mp hhead) (List.cons_ne_nil head [])
    · obtain ⟨hdead, hnone⟩ := hunfit hs
      refine iff_of_false ?_ fun hall => hs (hall s rfl)
      rintro ⟨⟨s', head, bodies, hhanded, -⟩, -⟩
      rw [hserve, reject_of_dead hdead, hnone] at hhanded
      cases hhanded

/-- A request whose head was read is answered if the head that its handler sends first fits, or if
it sends none. -/
theorem http_request_answered_iff {socket : Socket} {head : HeadState} {pending : List UInt8}
    (hread : (readHead socket).1 = .ok head pending) (cs : List Call) (taken : ℕ → ℤ)
    (hsends : SendsSucceed (serveRequest socket).1 cs taken) :
    Answered (serveRequest socket).1 cs taken ↔
      ((∃ request, (serveRequest socket).1 = .handled request) →
        ∀ s, Setup.start.firstHead cs = some s → s.Fits) := by
  have hdecision := serveRequest_ok hread
  cases hparse : parseRequestLine head with
  | ok request =>
    rw [hparse] at hdecision
    rw [hdecision] at hsends ⊢
    have hiff := answered_handled_iff request hsends
    exact ⟨fun h _ => hiff.mp h, fun h => hiff.mpr (h ⟨request, rfl⟩)⟩
  | error status =>
    rw [hparse] at hdecision
    rw [hdecision] at hsends ⊢
    refine iff_of_true (answered_rejected (parseRequestLine_error hparse) hsends) fun h => ?_
    obtain ⟨request, hrequest⟩ := h
    cases hrequest

end

def getSocket : Socket := ⟨ascii "GET / HTTP/1.1\r\n\r\n", fun _ => 127, 0⟩

theorem readHead_getSocket : ∃ head, (readHead getSocket).1 = .ok head [] := ⟨_, rfl⟩

/-- A text of two bytes with its type; the stack takes the head of 83 bytes, then the body. -/
theorem http_request_answered_iff_text :
    Answered (serveRequest getSocket).1
        [.setContentType (some (ascii "text/plain")), .respondBinary ⟨2, some ⟨ascii "ok", by decide⟩⟩]
        (fun moment => if moment = 2 then 83 else 2) ↔
      ((∃ request, (serveRequest getSocket).1 = .handled request) →
        ∀ s, Setup.start.firstHead [.setContentType (some (ascii "text/plain")),
          .respondBinary ⟨2, some ⟨ascii "ok", by decide⟩⟩] = some s → s.Fits) := by
  obtain ⟨head, hread⟩ := readHead_getSocket
  exact http_request_answered_iff hread _ _ (by decide +kernel)

/-- A type of 200 bytes: the handler's head does not fit, and nothing is sent at all. -/
theorem http_request_unanswered : ¬∀ (socket : Socket) (head : HeadState) (pending : List UInt8),
    (readHead socket).1 = .ok head pending → ∀ (cs : List Response.Call) (taken : ℕ → ℤ),
      SendsSucceed (serveRequest socket).1 cs taken → Answered (serveRequest socket).1 cs taken := by
  intro h
  obtain ⟨head, hread⟩ := readHead_getSocket
  have hnone : (serve (serveRequest getSocket).1 [.setContentType (some (List.replicate 200 97)),
      .respondBinary ⟨0, none⟩] none fun _ => 0).wire.handed.length = 0 := by decide +kernel
  have hnil := List.eq_nil_of_length_eq_zero hnone
  obtain ⟨⟨s, first, bodies, hhanded, -⟩, -⟩ := h getSocket head [] hread _ _ (by
    rw [SendsSucceed, hnil]
    nofun)
  rw [hnil] at hhanded
  cases hhanded

end BekenCam.Http
