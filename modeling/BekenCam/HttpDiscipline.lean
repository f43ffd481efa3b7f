import BekenCam.HttpResponse

/-!
# What goes out for a response

One head goes out, the whole text of what was set up, then the bodies, and never more than the head
declares. A response that failed, or whose server is stopping, is dead: nothing goes out any more. A
send looks at `stopping` one moment before it hands its piece over, so that a stop in between comes
too late for that piece.
-/
namespace BekenCam.Http

/-- The bytes of these pieces. -/
def sentBytes (pieces : List Sent) : ℕ := (pieces.map fun piece => piece.data.length).sum

@[simp] theorem sentBytes_nil : sentBytes [] = 0 := rfl

@[simp] theorem sentBytes_append (a b : List Sent) :
    sentBytes (a ++ b) = sentBytes a + sentBytes b := by
  simp [sentBytes]

/-! ## The text of a head -/

/-- What the setters leave behind. -/
structure Setup where
  status : ℤ
  contentType : Option (List UInt8)
  contentEncoding : Option (List UInt8)
  lengthMode : LengthMode
  length : UInt32

namespace Setup

variable (s : Setup)

def declared : Option UInt32 :=
  if s.lengthMode = .auto ∨ s.lengthMode = .fixed then some s.length else none

def fieldText (name : String) : Option (List UInt8) → List UInt8
  | none => []
  | some value => ascii name ++ value ++ ascii "\r\n"

/-- The whole head, whatever its length. -/
def headText : List UInt8 :=
  ascii "HTTP/1.1 " ++ decimal s.status ++ ascii " " ++ reason s.status ++ ascii "\r\n" ++
    fieldText "Content-Type: " s.contentType ++ fieldText "Content-Encoding: " s.contentEncoding ++
    fieldText "Content-Length: " (s.declared.map fun length => decimal length.toNat) ++
    ascii "Connection: close\r\n\r\n"

end Setup

/-- A text, if it fits the buffer with a NUL. -/
def held (text : List UInt8) : Option (List UInt8) :=
  if text.length < headerBufSize then some text else none

theorem held_append (text more : List UInt8) :
    ((held text).bind fun buf => append buf more) = held (text ++ more) := by
  unfold held
  rw [List.length_append]
  split_ifs with htext hall hall
  · rw [Option.bind_some, append, if_pos (by omega)]
  · rw [Option.bind_some, append, if_neg (by omega)]
  · omega
  · rfl

theorem held_appendField (text : List UInt8) (name : String) (value : Option (List UInt8)) :
    ((held text).bind fun buf => appendField buf name value) =
      held (text ++ Setup.fieldText name value) := by
  cases value with
  | none =>
    rw [Setup.fieldText, List.append_nil]
    cases held text with
    | none => rfl
    | some buf => rfl
  | some value => exact held_append text _

/-- A head that declares this length, in the text of a set-up with it. -/
def Sent.IsHead (piece : Sent) (declared : Option UInt32) : Prop :=
  piece.part = .head declared ∧ ∃ s : Setup, s.declared = declared ∧ piece.data = s.headText

namespace Response

def setup (r : Response) : Setup :=
  ⟨r.status, r.contentType, r.contentEncoding, r.lengthMode, r.length⟩

theorem formatHead_eq (r : Response) : r.formatHead = held r.setup.headText := by
  have hfirst : ∀ text, append [] text = held text := fun text => rfl
  unfold formatHead
  rw [hfirst]
  change (held _).bind (fun _ => Option.bind _ fun _ => Option.bind _ fun _ => Option.bind _ _) = _
  rw [← Option.bind_assoc, held_appendField, ← Option.bind_assoc, held_appendField,
    ← Option.bind_assoc, held_appendField, held_append]
  rfl

variable {r : Response}

theorem eq_headText {buf : List UInt8} (h : r.formatHead = some buf) : buf = r.setup.headText := by
  rw [formatHead_eq, held] at h
  split_ifs at h
  exact (Option.some.inj h).symm

/-- Nothing is sent any more. -/
def Dead (r : Response) : Prop := r.failed = true ∨ r.stopping = true

instance : Decidable r.Dead := by
  unfold Dead
  infer_instance

theorem stopping_iff : r.stopping = true ↔ ∃ stop, r.wire.stop = some stop ∧ stop ≤ r.wire.now := by
  unfold stopping
  cases r.wire.stop <;> simp

theorem stopping_tick (h : r.stopping = true) : r.tick.stopping = true := by
  obtain ⟨stop, hstop, hle⟩ := stopping_iff.mp h
  exact stopping_iff.mpr ⟨stop, hstop, Nat.le_succ_of_le hle⟩

theorem Dead.tick (h : r.Dead) : r.tick.Dead := by
  rcases h with h | h
  · exact .inl h
  · exact .inr (stopping_tick h)

/-- What `sendRaw` does. -/
theorem sendRaw_cases (r : Response) (part : Part) (data : List UInt8) (more : Bool) :
    (r.Dead ∧ (r.sendRaw part data more = (false, r) ∨
      r.sendRaw part data more = (false, r.tick))) ∨
    (¬r.Dead ∧ data = [] ∧ r.sendRaw part data more = (true, r.tick)) ∨
    (¬r.Dead ∧ data ≠ [] ∧ ∃ ok, r.sendRaw part data more =
      (ok, { r.tick.hand part data more with failed := !ok })) := by
  unfold sendRaw
  by_cases hfailed : r.failed = true
  · exact .inl ⟨.inl hfailed, .inl (if_pos hfailed)⟩
  by_cases hstopping : r.stopping = true
  · exact .inl ⟨.inr hstopping, .inr (by rw [if_neg hfailed, if_pos hstopping])⟩
  have halive : ¬r.Dead := not_or.mpr ⟨hfailed, hstopping⟩
  rw [if_neg hfailed, if_neg hstopping]
  by_cases hdata : data = []
  · exact .inr (.inl ⟨halive, hdata, if_pos hdata⟩)
  · refine .inr (.inr ⟨halive, hdata, ?_⟩)
    rw [if_neg hdata]
    dsimp only
    split_ifs with htaken
    · exact ⟨false, rfl⟩
    · refine ⟨true, ?_⟩
      rw [Bool.not_eq_true] at hfailed
      simp only [hand, tick, hfailed, Bool.not_true]

/-! ## The invariant -/

/-- The pieces went out one after the other, and each was looked at before the stop. -/
structure Timed (r : Response) : Prop where
  past : ∀ piece ∈ r.wire.handed, piece.moment < r.wire.now
  order : r.wire.handed.Pairwise fun a b => a.moment < b.moment
  stop : ∀ piece ∈ r.wire.handed, ∀ stop, r.wire.stop = some stop → piece.moment ≤ stop

theorem Timed.tick (h : r.Timed) : r.tick.Timed :=
  ⟨fun piece hp => Nat.lt_succ_of_lt (h.past piece hp), h.order, h.stop⟩

/-- A piece is handed over one moment after the look at `stopping`. -/
theorem Timed.hand (h : r.Timed) (halive : ¬r.Dead) (part : Part) (data : List UInt8)
    (more : Bool) : (r.tick.hand part data more).Timed := by
  have hstop : ∀ stop, r.wire.stop = some stop → r.wire.now + 1 ≤ stop := by
    intro stop hs
    by_contra hlate
    exact halive (.inr (stopping_iff.mpr ⟨stop, hs, by omega⟩))
  refine ⟨fun piece hp => ?_, ?_, fun piece hp => ?_⟩
  · rcases List.mem_append.mp hp with hp | hp
    · have hpast := h.past piece hp
      exact Nat.lt_succ_of_lt (Nat.lt_succ_of_lt hpast)
    · rw [List.mem_singleton.mp hp]
      exact Nat.lt_succ_self _
  · refine List.pairwise_append.mpr ⟨h.order, List.pairwise_singleton .., fun a ha b hb => ?_⟩
    rw [List.mem_singleton.mp hb]
    exact Nat.lt_succ_of_lt (h.past a ha)
  · rcases List.mem_append.mp hp with hp | hp
    · exact h.stop piece hp
    · rw [List.mem_singleton.mp hp]
      exact hstop

/-- The head that went out, with what it declares, and the bodies behind it. -/
structure HeadOut (handed : List Sent) (declared : Option UInt32) (bodies : List Sent) : Prop where
  handed : ∃ head, handed = head :: bodies ∧ head.IsHead declared
  bodies : ∀ piece ∈ bodies, piece.part = .body

/-- The length is counted down, as long as the response lives. -/
structure Counted (r : Response) (declared : Option UInt32) (bodies : List Sent) : Prop where
  le : ∀ length, declared = some length → sentBytes bodies ≤ length.toNat
  left : ∀ length, declared = some length → ¬r.Dead → r.lengthMode ≠ .sealed →
    r.lengthMode = .fixed ∧ sentBytes bodies + r.remaining.toNat = length.toNat
  none_left : declared = none → ¬r.Dead → r.lengthMode = .none

structure Inv (r : Response) : Prop where
  timed : r.Timed
  fresh : r.headersSent = false → r.wire.handed = [] ∧ r.failed = false ∧
    r.lengthMode ≠ .sealed ∧ (r.lengthMode = .fixed → r.remaining = r.length)
  out : r.headersSent = true → r.wire.handed = [] ∧ r.Dead ∨
    ∃ declared bodies, HeadOut r.wire.handed declared bodies ∧ r.Counted declared bodies

theorem inv_start (stop : Option ℕ) (taken : ℕ → ℤ) : (start stop taken).Inv where
  timed := ⟨nofun, List.Pairwise.nil, nofun⟩
  fresh _ := ⟨rfl, rfl, nofun, nofun⟩
  out := nofun

theorem Inv.tick (h : r.Inv) : r.tick.Inv where
  timed := h.timed.tick
  fresh := h.fresh
  out hsent := by
    rcases h.out hsent with ⟨hnone, hdead⟩ | ⟨declared, bodies, hout, hcount⟩
    · exact .inl ⟨hnone, hdead.tick⟩
    · exact .inr ⟨declared, bodies, hout, hcount.le,
        fun length hlength halive => hcount.left length hlength fun hdead => halive hdead.tick,
        fun hnone halive => hcount.none_left hnone fun hdead => halive hdead.tick⟩

/-- A head is out. -/
theorem inv_of_out {declared : Option UInt32} {bodies : List Sent} (htimed : r.Timed)
    (hsent : r.headersSent = true) (hout : HeadOut r.wire.handed declared bodies)
    (hcount : r.Counted declared bodies) : r.Inv := by
  refine ⟨htimed, fun hnot => ?_, fun _ => .inr ⟨declared, bodies, hout, hcount⟩⟩
  rw [hsent] at hnot
  cases hnot

/-- A body may follow: either no length is declared, or what is left of it is known. -/
def Counting (r : Response) (declared : Option UInt32) (bodies : List Sent) : Prop :=
  declared = none ∧ r.lengthMode = .none ∨ ∃ length, declared = some length ∧
    (r.lengthMode = .auto ∨ r.lengthMode = .fixed) ∧
      sentBytes bodies + r.remaining.toNat = length.toNat

theorem Counting.sealLength {declared : Option UInt32} {bodies : List Sent}
    (h : r.Counting declared bodies) : r.sealLength.Counted declared bodies := by
  unfold Response.sealLength
  rcases h with ⟨rfl, hmode⟩ | ⟨length, rfl, hmode, hsum⟩
  · rw [hmode, if_neg nofun]
    exact ⟨nofun, nofun, fun _ _ => hmode⟩
  · refine ⟨fun total htotal => ?_, fun total htotal _ hopen => ?_, nofun⟩
    · obtain rfl := Option.some.inj htotal
      omega
    · obtain rfl := Option.some.inj htotal
      rcases hmode with hmode | hmode
      · rw [if_pos hmode] at hopen
        exact absurd rfl hopen
      · rw [hmode, if_neg nofun]
        exact ⟨hmode, hsum⟩

/-- What `sealLength` leaves alone. -/
theorem sealLength_wire : r.sealLength.wire = r.wire ∧
    r.sealLength.headersSent = r.headersSent ∧ r.sealLength.failed = r.failed := by
  unfold sealLength
  split_ifs <;> exact ⟨rfl, rfl, rfl⟩

theorem spend_wire (r : Response) (length : UInt32) : (r.spend length).wire = r.wire ∧
    (r.spend length).headersSent = r.headersSent ∧ (r.spend length).failed = r.failed := by
  unfold spend
  split_ifs <;> exact ⟨rfl, rfl, rfl⟩

theorem Timed.congr {r' : Response} (h : r.Timed) (hwire : r'.wire = r.wire) : r'.Timed :=
  ⟨hwire ▸ h.past, hwire ▸ h.order, hwire ▸ h.stop⟩

theorem Dead.congr {r' : Response} (h : r.Dead) (hwire : r'.wire = r.wire)
    (hfailed : r'.failed = r.failed) : r'.Dead := by
  unfold Dead stopping at h ⊢
  rwa [hwire, hfailed]

theorem Counting.le {declared : Option UInt32} {bodies : List Sent}
    (h : r.Counting declared bodies) :
    ∀ length, declared = some length → sentBytes bodies ≤ length.toNat := by
  intro total htotal
  rcases h with ⟨hnone, -⟩ | ⟨length, hlength, -, hsum⟩
  · rw [hnone] at htotal
    cases htotal
  · obtain rfl := Option.some.inj (hlength.symm.trans htotal)
    omega

/-- The bytes of a body that fits are taken from what is left. -/
theorem Counting.spend {declared : Option UInt32} {bodies bodies' : List Sent} {length : UInt32}
    (h : r.Counting declared bodies) (hle : r.lengthMode ≠ .none → length ≤ r.remaining)
    (hbodies : sentBytes bodies' = sentBytes bodies + length.toNat) :
    (r.spend length).Counting declared bodies' := by
  unfold Response.spend
  rcases h with ⟨rfl, hmode⟩ | ⟨total, rfl, hmode, hsum⟩
  · rw [hmode]
    exact .inl ⟨rfl, hmode⟩
  · have hcounted : r.lengthMode ≠ .none := by
      rcases hmode with hmode | hmode <;> rw [hmode] <;> nofun
    have hfits := UInt32.le_iff_toNat_le.mp (hle hcounted)
    rw [if_pos hcounted]
    refine .inr ⟨total, rfl, hmode, ?_⟩
    rw [UInt32.toNat_sub_of_le _ _ (hle hcounted)]
    omega

/-- A dead response counts nothing any more. -/
theorem Counted.of_dead {declared : Option UInt32} {bodies : List Sent} (hdead : r.Dead)
    (hle : ∀ length, declared = some length → sentBytes bodies ≤ length.toNat) :
    r.Counted declared bodies :=
  ⟨hle, fun _ _ halive => absurd hdead halive, fun _ halive => absurd hdead halive⟩

theorem Counting.tick {declared : Option UInt32} {bodies : List Sent}
    (h : r.Counting declared bodies) : r.tick.Counting declared bodies := h

/-- What `sendBody` does behind the head. -/
theorem sendBody_cases (r : Response) (body : Body) :
    (r.Dead ∧ ∃ r', (r' = r.spend body.length ∨ r' = (r.spend body.length).tick) ∧
      r.sendBody body = (false, r'.sealLength)) ∨
    (¬r.Dead ∧ body.bytes = [] ∧
      r.sendBody body = (true, (r.spend body.length).tick.sealLength)) ∨
    (¬r.Dead ∧ body.bytes ≠ [] ∧ ∃ ok, r.sendBody body =
      (ok, ({ (r.spend body.length).tick.hand .body body.bytes r.more with
        failed := !ok } : Response).sealLength)) := by
  obtain ⟨hwire, hsent, hfailed⟩ := r.spend_wire body.length
  have hdead : (r.spend body.length).Dead ↔ r.Dead :=
    ⟨fun h => h.congr hwire.symm hfailed.symm, fun h => h.congr hwire hfailed⟩
  unfold sendBody
  rcases sendRaw_cases (r.spend body.length) .body body.bytes r.more with
    ⟨hd, hsend | hsend⟩ | ⟨halive, hdata, hsend⟩ | ⟨halive, hdata, ok, hsend⟩
  · exact .inl ⟨hdead.mp hd, _, .inl rfl, by rw [hsend]⟩
  · exact .inl ⟨hdead.mp hd, _, .inr rfl, by rw [hsend]⟩
  · exact .inr (.inl ⟨fun h => halive (hdead.mpr h), hdata, by rw [hsend]⟩)
  · exact .inr (.inr ⟨fun h => halive (hdead.mpr h), hdata, ok, by rw [hsend]⟩)

theorem sealLength_inv {declared : Option UInt32} {bodies : List Sent} (htimed : r.Timed)
    (hsent : r.headersSent = true) (hout : HeadOut r.wire.handed declared bodies)
    (hcount : r.Counting declared bodies) : r.sealLength.Inv := by
  obtain ⟨hwire, hsent', -⟩ := sealLength_wire (r := r)
  exact inv_of_out (htimed.congr hwire) (hsent'.trans hsent) (hwire ▸ hout) hcount.sealLength

theorem sealLength_inv_of_dead {declared : Option UInt32} {bodies : List Sent} (htimed : r.Timed)
    (hsent : r.headersSent = true) (hout : HeadOut r.wire.handed declared bodies) (hdead : r.Dead)
    (hle : ∀ length, declared = some length → sentBytes bodies ≤ length.toNat) :
    r.sealLength.Inv := by
  obtain ⟨hwire, hsent', hfailed⟩ := sealLength_wire (r := r)
  exact inv_of_out (htimed.congr hwire) (hsent'.trans hsent) (hwire ▸ hout)
    (.of_dead (hdead.congr hwire hfailed) hle)

/-- A body behind the head that fits leaves the invariant. -/
theorem sendBody_inv {declared : Option UInt32} {bodies : List Sent} {body : Body}
    (htimed : r.Timed) (hsent : r.headersSent = true)
    (hout : HeadOut r.wire.handed declared bodies) (hcount : r.Counting declared bodies)
    (hbytes : body.bytes.length = body.length.toNat)
    (hle : r.lengthMode ≠ .none → body.length ≤ r.remaining) : (r.sendBody body).2.Inv := by
  obtain ⟨hwire, hsent', hfailed⟩ := r.spend_wire body.length
  have htimed' : (r.spend body.length).Timed := htimed.congr hwire
  have hout' : HeadOut (r.spend body.length).wire.handed declared bodies := hwire ▸ hout
  rcases r.sendBody_cases body with ⟨hdead, r', hr', hsend⟩ | ⟨halive, hdata, hsend⟩ |
    ⟨halive, hdata, ok, hsend⟩
  · have hdead' : (r.spend body.length).Dead := hdead.congr hwire hfailed
    rw [hsend]
    rcases hr' with rfl | rfl
    · exact sealLength_inv_of_dead htimed' (hsent'.trans hsent) hout' hdead' hcount.le
    · exact sealLength_inv_of_dead htimed'.tick (hsent'.trans hsent) hout' hdead'.tick hcount.le
  · have hspent : (r.spend body.length).Counting declared bodies := by
      refine hcount.spend hle ?_
      rw [← hbytes, hdata]
      rfl
    rw [hsend]
    exact sealLength_inv htimed'.tick (hsent'.trans hsent) hout' hspent.tick
  · have halive' : ¬(r.spend body.length).Dead :=
      fun h => halive (h.congr hwire.symm hfailed.symm)
    have hhand := htimed'.hand halive' .body body.bytes r.more
    obtain ⟨head, hhanded, hpart⟩ := hout'.handed
    have hspent : (r.spend body.length).Counting declared (bodies ++
        [⟨.body, body.bytes, r.more, (r.spend body.length).tick.wire.now⟩]) := by
      refine hcount.spend hle ?_
      rw [sentBytes_append, ← hbytes]
      rfl
    rw [hsend]
    refine sealLength_inv ⟨hhand.past, hhand.order, hhand.stop⟩ (hsent'.trans hsent)
      ⟨⟨head, ?_, hpart⟩, ?_⟩ hspent
    · change (r.spend body.length).wire.handed ++ [_] = _
      rw [hhanded]
      rfl
    · intro piece hpiece
      rcases List.mem_append.mp hpiece with hpiece | hpiece
      · exact hout.bodies piece hpiece
      · rw [List.mem_singleton.mp hpiece]

/-! ## The head -/

theorem append_ne_nil {buf text out : List UInt8} (htext : text ≠ [])
    (h : append buf text = some out) : out ≠ [] := by
  unfold append at h
  split_ifs at h
  rw [← Option.some.inj h]
  exact List.append_ne_nil_of_right_ne_nil buf htext

theorem formatHead_ne_nil {buf : List UInt8} (h : r.formatHead = some buf) : buf ≠ [] := by
  unfold formatHead at h
  obtain ⟨_, -, h⟩ := Option.bind_eq_some_iff.mp h
  obtain ⟨_, -, h⟩ := Option.bind_eq_some_iff.mp h
  obtain ⟨_, -, h⟩ := Option.bind_eq_some_iff.mp h
  obtain ⟨_, -, h⟩ := Option.bind_eq_some_iff.mp h
  exact append_ne_nil (show ascii "Connection: close\r\n\r\n" ≠ [] by decide) h

/-- What `sendHeaders` does. -/
theorem sendHeaders_cases (r : Response) (more : Bool) :
    (∃ r', r.sendHeaders more = (false, r') ∧ r'.Dead ∧ r'.headersSent = true ∧
      (r'.wire = r.wire ∨ r'.wire = r.tick.wire)) ∨
    (¬r.Dead ∧ ∃ ok buf, r.formatHead = some buf ∧ r.sendHeaders more =
      (ok, { r.tick.hand (.head r.declared) buf more with headersSent := true, failed := !ok })) := by
  unfold sendHeaders
  cases hformat : r.formatHead with
  | none => exact .inl ⟨_, rfl, .inl rfl, rfl, .inl rfl⟩
  | some buf =>
    dsimp only
    rcases sendRaw_cases { r with headersSent := true } (.head r.declared) buf more with
      ⟨hdead, hsend | hsend⟩ | ⟨halive, hdata, hsend⟩ | ⟨halive, hdata, ok, hsend⟩
    · exact .inl ⟨_, hsend, hdead, rfl, .inl rfl⟩
    · exact .inl ⟨_, hsend, hdead.tick, rfl, .inr rfl⟩
    · exact absurd hdata (formatHead_ne_nil hformat)
    · exact .inr ⟨halive, ok, buf, rfl, hsend⟩

/-! ## A body -/

/-- The bodies that are turned away. -/
def Refuses (r : Response) (body : Body) : Prop :=
  r.Dead ∨ r.lengthMode = .sealed ∨ (body.data = none ∧ 0 < body.length) ∨
    (r.lengthMode = .fixed ∧ r.remaining < body.length)

theorem bytes_length {body : Body} (h : ¬(body.data = none ∧ 0 < body.length)) :
    body.bytes.length = body.length.toNat := by
  unfold Body.bytes
  cases hdata : body.data with
  | none =>
    have hzero : ¬0 < body.length := fun hpos => h ⟨hdata, hpos⟩
    rw [UInt32.lt_iff_toNat_lt] at hzero
    simp only [Option.map_none, Option.getD_none, List.length_nil]
    exact (Nat.eq_zero_of_not_pos hzero).symm
  | some data => exact data.property

theorem decideLength_of_ne {length : UInt32} (h : r.lengthMode ≠ .auto) :
    r.decideLength length = r :=
  if_neg h

/-- A body that is refused leaves everything as it was, up to the look at `stopping`. -/
theorem respondBinary_refused {body : Body} (h : r.Refuses body) :
    r.respondBinary body = (false, r) ∨ r.respondBinary body = (false, r.tick) := by
  unfold respondBinary
  by_cases hfailed : r.failed = true
  · exact .inl (if_pos hfailed)
  rw [if_neg hfailed]
  by_cases hsealed : (r.stopping || r.lengthMode == .sealed) = true
  · exact .inr (if_pos hsealed)
  rw [if_neg hsealed]
  by_cases hnull : (body.data.isNone && decide (0 < body.length)) = true
  · exact .inr (if_pos hnull)
  rw [if_neg hnull]
  simp only [Bool.or_eq_true, beq_iff_eq, not_or] at hsealed
  simp only [Bool.and_eq_true, Option.isNone_iff_eq_none, decide_eq_true_eq] at hnull
  rcases h with (hdead | hdead) | hmode | hdata | ⟨hmode, hless⟩
  · exact absurd hdead hfailed
  · exact absurd hdead hsealed.1
  · exact absurd hmode hsealed.2
  · exact absurd hdata hnull
  · have hne : r.tick.lengthMode ≠ .auto := by
      change r.lengthMode ≠ .auto
      rw [hmode]
      nofun
    rw [decideLength_of_ne hne]
    refine .inr (if_pos ⟨?_, hless⟩)
    change r.lengthMode ≠ .none
    rw [hmode]
    nofun

theorem decideLength_fits {body : Body} (h : ¬r.Refuses body) :
    (r.tick.decideLength body.length).lengthMode ≠ .none →
      body.length ≤ (r.tick.decideLength body.length).remaining := by
  intro hmode
  simp only [Refuses, not_or] at h
  obtain ⟨-, hsealed, -, hfixed⟩ := h
  unfold decideLength at hmode ⊢
  split_ifs at hmode ⊢ with hauto
  · exact UInt32.le_refl _
  · change r.lengthMode ≠ .auto at hauto
    change r.lengthMode ≠ .none at hmode
    change body.length ≤ r.remaining
    cases hr : r.lengthMode with
    | auto => exact absurd hr hauto
    | none => exact absurd hr hmode
    | sealed => exact absurd hr hsealed
    | fixed => exact UInt32.not_lt.mp fun hless => hfixed ⟨hr, hless⟩

/-- A body that is not refused is sent, behind the head if that is not out yet. -/
theorem respondBinary_taken {body : Body} (h : ¬r.Refuses body) :
    r.respondBinary body =
      if r.headersSent then (r.tick.decideLength body.length).sendBody body
      else
        let sent := (r.tick.decideLength body.length).sendHeaders
          (decide (0 < body.length) || r.more)
        if sent.1 then sent.2.sendBody body else (false, sent.2) := by
  have hfits := decideLength_fits h
  simp only [Refuses, Dead, not_or] at h
  obtain ⟨⟨hfailed, hstopping⟩, hsealed, hnull, -⟩ := h
  have hnull' : ¬(body.data.isNone && decide (0 < body.length)) = true := by
    simpa only [Bool.and_eq_true, Option.isNone_iff_eq_none, decide_eq_true_eq] using hnull
  have hopen : ¬(r.stopping || r.lengthMode == .sealed) = true := by
    simp only [Bool.or_eq_true, beq_iff_eq, not_or]
    exact ⟨hstopping, hsealed⟩
  have hlength : ¬((r.tick.decideLength body.length).lengthMode ≠ .none ∧
      (r.tick.decideLength body.length).remaining < body.length) := by
    rintro ⟨hmode, hless⟩
    exact UInt32.not_lt.mpr (hfits hmode) hless
  have hkept : ∀ length, (r.tick.decideLength length).headersSent = r.headersSent ∧
      (r.tick.decideLength length).more = r.more := by
    intro length
    unfold decideLength
    split_ifs <;> exact ⟨rfl, rfl⟩
  unfold respondBinary
  rw [if_neg hfailed, if_neg hopen, if_neg hnull']
  simp only [if_neg hlength, (hkept body.length).1, (hkept body.length).2]

theorem decideLength_wire (r : Response) (length : UInt32) : (r.decideLength length).wire = r.wire ∧
    (r.decideLength length).headersSent = r.headersSent ∧
    (r.decideLength length).failed = r.failed := by
  unfold decideLength
  split_ifs <;> exact ⟨rfl, rfl, rfl⟩

/-- Behind the head, what is counted for a response that lives. -/
theorem Inv.counting (h : r.Inv) (hsent : r.headersSent = true) (halive : ¬r.Dead)
    (hopen : r.lengthMode ≠ .sealed) : r.lengthMode ≠ .auto ∧
      ∃ declared bodies, HeadOut r.wire.handed declared bodies ∧ r.Counting declared bodies := by
  rcases h.out hsent with ⟨-, hdead⟩ | ⟨declared, bodies, hout, hcount⟩
  · exact absurd hdead halive
  · cases declared with
    | none =>
      have hmode := hcount.none_left rfl halive
      refine ⟨?_, none, bodies, hout, .inl ⟨rfl, hmode⟩⟩
      rw [hmode]
      nofun
    | some length =>
      obtain ⟨hmode, hsum⟩ := hcount.left length rfl halive hopen
      refine ⟨?_, some length, bodies, hout, .inr ⟨length, rfl, .inr hmode, hsum⟩⟩
      rw [hmode]
      nofun

/-- Before the head, all of the length is left. -/
theorem Inv.fresh_counting (h : r.Inv) (hsent : r.headersSent = false) (length : UInt32) :
    (r.tick.decideLength length).Counting (r.tick.decideLength length).declared [] := by
  obtain ⟨-, -, hopen, hfixed⟩ := h.fresh hsent
  unfold Counting declared decideLength
  change r.tick.lengthMode ≠ .sealed at hopen
  change r.tick.lengthMode = .fixed → r.tick.remaining = r.tick.length at hfixed
  cases hmode : r.tick.lengthMode with
  | auto => simp
  | fixed => simp [hmode, hfixed hmode]
  | none => simp [hmode]
  | sealed => exact absurd hmode hopen

/-- The head is out after `sendHeaders`, or the response is dead without it. -/
theorem sendHeaders_inv (h : r.Inv) (hsent : r.headersSent = false) (length : UInt32)
    (more : Bool) :
    (∃ r', (r.tick.decideLength length).sendHeaders more = (false, r') ∧ r'.Inv ∧ r'.Dead ∧
      r'.wire.handed = []) ∨
    (¬(r.tick.decideLength length).Dead ∧ ∃ ok r', (r.tick.decideLength length).sendHeaders more =
      (ok, r') ∧ r'.Timed ∧ r'.headersSent = true ∧ r'.failed = !ok ∧
      HeadOut r'.wire.handed (r.tick.decideLength length).declared [] ∧
      r'.Counting (r.tick.decideLength length).declared [] ∧
      r'.lengthMode = (r.tick.decideLength length).lengthMode ∧
      r'.remaining = (r.tick.decideLength length).remaining) := by
  have hcounting := h.fresh_counting hsent length
  obtain ⟨hwire, -, -⟩ := r.tick.decideLength_wire length
  have htimed : (r.tick.decideLength length).Timed := h.timed.tick.congr hwire
  have hnone : (r.tick.decideLength length).wire.handed = [] := by
    rw [hwire]
    exact (h.fresh hsent).1
  rcases (r.tick.decideLength length).sendHeaders_cases more with
    ⟨r', hsend, hdead, hsent', hwire' | hwire'⟩ | ⟨halive, ok, buf, hformat, hsend⟩
  · have hnone' : r'.wire.handed = [] := hwire' ▸ hnone
    refine .inl ⟨r', hsend, ⟨htimed.congr hwire', fun hnot => ?_, fun _ => .inl ⟨hnone', hdead⟩⟩,
      hdead, hnone'⟩
    rw [hsent'] at hnot
    cases hnot
  · have hnone' : r'.wire.handed = [] := hwire' ▸ hnone
    refine .inl ⟨r', hsend, ⟨htimed.tick.congr hwire', fun hnot => ?_,
      fun _ => .inl ⟨hnone', hdead⟩⟩, hdead, hnone'⟩
    rw [hsent'] at hnot
    cases hnot
  · have hhand := htimed.hand halive (.head (r.tick.decideLength length).declared) buf more
    refine .inr ⟨halive, ok, _, hsend, ⟨hhand.past, hhand.order, hhand.stop⟩, rfl, rfl, ⟨?_, nofun⟩,
      hcounting, rfl, rfl⟩
    refine ⟨⟨.head (r.tick.decideLength length).declared, buf, more,
      (r.tick.decideLength length).tick.wire.now⟩, ?_, rfl, _, rfl, eq_headText hformat⟩
    change (r.tick.decideLength length).wire.handed ++ [_] = _
    rw [hnone]
    rfl

theorem respondBinary_inv (h : r.Inv) (body : Body) : (r.respondBinary body).2.Inv := by
  by_cases hrefuses : r.Refuses body
  · rcases respondBinary_refused hrefuses with hr | hr
    · rw [hr]
      exact h
    · rw [hr]
      exact h.tick
  have hfits := decideLength_fits hrefuses
  rw [respondBinary_taken hrefuses]
  simp only [Refuses, not_or] at hrefuses
  obtain ⟨halive, hopen, hnull, -⟩ := hrefuses
  have hbytes := bytes_length hnull
  cases hsent : r.headersSent with
  | true =>
    obtain ⟨hauto, declared, bodies, hout, hcount⟩ := h.counting hsent halive hopen
    have hsame : r.tick.decideLength body.length = r.tick := decideLength_of_ne hauto
    rw [if_pos rfl, hsame]
    rw [hsame] at hfits
    exact sendBody_inv h.timed.tick hsent hout hcount.tick hbytes hfits
  | false =>
    rw [if_neg Bool.false_ne_true]
    rcases sendHeaders_inv h hsent body.length (decide (0 < body.length) || r.more) with
      ⟨r', hsend, hinv, -, -⟩ | ⟨-, ok, r', hsend, htimed, hsent', hfailed, hout, hcount, hmode,
        hremaining⟩
    · rw [hsend]
      exact hinv
    · rw [hsend]
      cases ok with
      | true =>
        refine sendBody_inv htimed hsent' hout hcount hbytes ?_
        rw [hmode, hremaining]
        exact hfits
      | false => exact inv_of_out htimed hsent' hout (.of_dead (.inl hfailed) hcount.le)

/-! ## The other calls -/

/-- Before the head anything may be set that keeps the length and what is left of it equal. -/
theorem Inv.of_fresh {r' : Response} (h : r.Inv) (hsent : r.headersSent = false)
    (hwire : r'.wire = r.wire) (hsent' : r'.headersSent = r.headersSent)
    (hfailed : r'.failed = r.failed) (hmode : r'.lengthMode ≠ .sealed)
    (hfixed : r'.lengthMode = .fixed → r'.remaining = r'.length) : r'.Inv := by
  refine ⟨h.timed.congr hwire, fun _ => ⟨?_, ?_, hmode, hfixed⟩, fun hyes => ?_⟩
  · rw [hwire]
    exact (h.fresh hsent).1
  · rw [hfailed]
    exact (h.fresh hsent).2.1
  · rw [hsent', hsent] at hyes
    cases hyes

theorem setMore_inv (h : r.Inv) (more : Bool) : (r.setMore more).Inv := by
  refine ⟨h.timed.congr rfl, h.fresh, fun hsent => ?_⟩
  rcases h.out hsent with ⟨hnone, hdead⟩ | ⟨declared, bodies, hout, hcount⟩
  · exact .inl ⟨hnone, hdead⟩
  · exact .inr ⟨declared, bodies, hout, hcount.le, hcount.left, hcount.none_left⟩

theorem call_inv (h : r.Inv) (c : Call) : (r.call c).2.Inv := by
  have hfresh := h.fresh
  cases c with
  | respondBinary body => exact respondBinary_inv h body
  | respondString body => exact respondBinary_inv h _
  | setMore more => exact setMore_inv h more
  | setStatus status =>
    simp only [call, setStatus]
    split_ifs with hset
    · exact h
    · simp only [Bool.or_eq_true, not_or, Bool.not_eq_true] at hset
      have hsent := hset.1.1
      exact h.of_fresh hsent rfl rfl rfl (hfresh hsent).2.2.1 (hfresh hsent).2.2.2
  | setContentType contentType =>
    simp only [call, setContentType]
    split_ifs with hset
    · exact h
    · have hsent := Bool.not_eq_true _ ▸ hset
      exact h.of_fresh hsent rfl rfl rfl (hfresh hsent).2.2.1 (hfresh hsent).2.2.2
  | setContentEncoding contentEncoding =>
    simp only [call, setContentEncoding]
    split_ifs with hset
    · exact h
    · have hsent := Bool.not_eq_true _ ▸ hset
      exact h.of_fresh hsent rfl rfl rfl (hfresh hsent).2.2.1 (hfresh hsent).2.2.2
  | setContentLength length =>
    simp only [call, setContentLength]
    split_ifs with hset
    · exact h
    · exact h.of_fresh (Bool.not_eq_true _ ▸ hset) rfl rfl rfl nofun fun _ => rfl
  | omitContentLength =>
    simp only [call, omitContentLength]
    split_ifs with hset
    · exact h
    · exact h.of_fresh (Bool.not_eq_true _ ▸ hset) rfl rfl rfl nofun nofun

theorem calls_inv (h : r.Inv) (cs : List Call) : (r.calls cs).Inv := by
  induction cs generalizing r with
  | nil => exact h
  | cons c cs ih => exact ih (call_inv h c)

theorem reject_inv (h : r.Inv) (status : ℤ) : (r.reject status).Inv := by
  unfold reject
  split_ifs with hsent
  · exact h
  · refine respondBinary_inv ?_ ⟨0, none⟩
    exact h.of_fresh (Bool.not_eq_true _ ▸ hsent) rfl rfl rfl nofun nofun

/-! ## What a call may not do -/

theorem dead_refuses (h : r.Dead) (body : Body) : r.Refuses body := .inl h

/-- Nothing goes out for a response that is dead. -/
theorem call_of_dead (h : r.Dead) (c : Call) :
    (r.call c).2.Dead ∧ (r.call c).2.wire.handed = r.wire.handed := by
  have hbody : ∀ body, (r.respondBinary body).2.Dead ∧
      (r.respondBinary body).2.wire.handed = r.wire.handed := by
    intro body
    rcases respondBinary_refused (dead_refuses h body) with hr | hr
    · rw [hr]
      exact ⟨h, rfl⟩
    · rw [hr]
      exact ⟨h.tick, rfl⟩
  cases c with
  | respondBinary body => exact hbody body
  | respondString body => exact hbody _
  | setMore more => exact ⟨h, rfl⟩
  | setStatus status =>
    simp only [call, setStatus]
    split_ifs <;> exact ⟨h, rfl⟩
  | setContentType contentType =>
    simp only [call, setContentType]
    split_ifs <;> exact ⟨h, rfl⟩
  | setContentEncoding contentEncoding =>
    simp only [call, setContentEncoding]
    split_ifs <;> exact ⟨h, rfl⟩
  | setContentLength length =>
    simp only [call, setContentLength]
    split_ifs <;> exact ⟨h, rfl⟩
  | omitContentLength =>
    simp only [call, omitContentLength]
    split_ifs <;> exact ⟨h, rfl⟩

theorem calls_of_dead (h : r.Dead) (cs : List Call) :
    (r.calls cs).Dead ∧ (r.calls cs).wire.handed = r.wire.handed := by
  induction cs generalizing r with
  | nil => exact ⟨h, rfl⟩
  | cons c cs ih =>
    obtain ⟨hdead, hsame⟩ := call_of_dead h c
    obtain ⟨hdead', hsame'⟩ := ih hdead
    exact ⟨hdead', hsame'.trans hsame⟩

theorem reject_of_dead (h : r.Dead) (status : ℤ) :
    (r.reject status).wire.handed = r.wire.handed := by
  unfold reject
  split_ifs
  · rfl
  · have hdead : ({ r with
        status := status
        contentType := none
        contentEncoding := none
        lengthMode := .auto
        more := false } : Response).Dead := h
    rcases respondBinary_refused (dead_refuses hdead ⟨0, none⟩) with hr | hr
    · rw [hr]
    · rw [hr]
      rfl

/-- The body of a call that has one. -/
def Call.body : Call → Option Body
  | .respondBinary body => some body
  | .respondString body => some (.ofString body)
  | _ => none

theorem call_body {c : Call} {body : Body} (hc : c.body = some body) :
    r.call c = r.respondBinary body := by
  cases c with
  | respondBinary b => rw [← Option.some.inj hc]; rfl
  | respondString b => rw [← Option.some.inj hc]; rfl
  | _ => cases hc

theorem Dead.sealLength (h : r.Dead) : r.sealLength.Dead :=
  h.congr sealLength_wire.1 sealLength_wire.2.2

theorem serve_inv (decision : Decision) (cs : List Call) (stop : Option ℕ) (taken : ℕ → ℤ) :
    (serve decision cs stop taken).Inv := by
  have hstart := inv_start stop taken
  cases decision with
  | dropped => exact hstart
  | rejected status => exact reject_inv hstart status
  | handled request => exact reject_inv (calls_inv hstart cs) 500

theorem sendBody_stop (r : Response) (body : Body) :
    (r.sendBody body).2.wire.stop = r.wire.stop := by
  obtain ⟨hwire, -, -⟩ := r.spend_wire body.length
  rcases r.sendBody_cases body with ⟨-, r', rfl | rfl, hsend⟩ | ⟨-, -, hsend⟩ | ⟨-, -, ok, hsend⟩ <;>
    rw [hsend, sealLength_wire.1, ← hwire] <;> rfl

theorem sendHeaders_stop (r : Response) (more : Bool) :
    (r.sendHeaders more).2.wire.stop = r.wire.stop := by
  rcases r.sendHeaders_cases more with ⟨r', hsend, -, -, hwire | hwire⟩ | ⟨-, ok, buf, -, hsend⟩
  · rw [hsend, hwire]
  · rw [hsend, hwire]
    rfl
  · rw [hsend]
    rfl

theorem respondBinary_stop (r : Response) (body : Body) :
    (r.respondBinary body).2.wire.stop = r.wire.stop := by
  by_cases hrefuses : r.Refuses body
  · rcases respondBinary_refused hrefuses with hr | hr
    · rw [hr]
    · rw [hr]
      rfl
  · have hdecided : (r.tick.decideLength body.length).wire.stop = r.wire.stop := by
      rw [(r.tick.decideLength_wire body.length).1]
      rfl
    rw [respondBinary_taken hrefuses]
    dsimp only
    split_ifs
    · rw [sendBody_stop, hdecided]
    · rw [sendBody_stop, sendHeaders_stop, hdecided]
    · rw [sendHeaders_stop, hdecided]

theorem call_stop (r : Response) (c : Call) : (r.call c).2.wire.stop = r.wire.stop := by
  cases c with
  | respondBinary body => exact r.respondBinary_stop body
  | respondString body => exact r.respondBinary_stop _
  | setMore more => rfl
  | setStatus status =>
    simp only [call, setStatus]
    split_ifs <;> rfl
  | setContentType contentType =>
    simp only [call, setContentType]
    split_ifs <;> rfl
  | setContentEncoding contentEncoding =>
    simp only [call, setContentEncoding]
    split_ifs <;> rfl
  | setContentLength length =>
    simp only [call, setContentLength]
    split_ifs <;> rfl
  | omitContentLength =>
    simp only [call, omitContentLength]
    split_ifs <;> rfl

theorem calls_stop (r : Response) (cs : List Call) : (r.calls cs).wire.stop = r.wire.stop := by
  induction cs generalizing r with
  | nil => rfl
  | cons c cs ih => exact (ih _).trans (r.call_stop c)

end Response

end BekenCam.Http
