import BekenCam.TelnetModel

/-!
# What the client decodes

What was sent decodes to the end of an event, and its data bytes, those the session has collected
and those in the queue are what was queued. The commands in it are the replies, which are those that
the bytes received ask for.
-/
namespace BekenCam.Telnet

open Ringbuf

variable {w : ℕ}

/-! ## The queue -/

theorem putAll_spec (ring : Ringbuf w) (bytes : List UInt8) :
    ∃ put, bytes = put ++ (putAll ring bytes).2 ∧
      (putAll ring bytes).1.unread = ring.unread ++ put := by
  induction bytes generalizing ring with
  | nil => exact ⟨[], rfl, by rw [List.append_nil]; rfl⟩
  | cons byte bytes ih =>
    cases hfull : ring.isFull with
    | true =>
      have hput : putAll ring (byte :: bytes) = (ring, byte :: bytes) := by
        simp only [putAll, putByte_full byte hfull]
      rw [hput]
      exact ⟨[], rfl, by rw [List.append_nil]⟩
    | false =>
      obtain ⟨hok, hring⟩ := putByte_spec byte hfull
      have hput : putAll ring (byte :: bytes) = putAll (ring.putByte byte).2 bytes := by
        rw [putAll]
        split
        · rename_i ring' heq
          rw [heq]
        · rename_i heq
          rw [heq] at hok
          cases hok
      obtain ⟨put, hbytes, hunread⟩ := ih (ring.putByte byte).2
      rw [hput]
      refine ⟨byte :: put, congrArg (byte :: ·) hbytes, ?_⟩
      rw [hunread, hring, List.append_assoc]
      rfl

/-! ## The replies -/

/-- What declines an option of the client. -/
def declineEvent : Event → List Event
  | .option command option =>
    if option = optEcho ∨ option = optSga then []
    else if command = do_ then [.option wont option]
    else if command = will then [.option dont option]
    else []
  | _ => []

theorem decode_decline (command option : UInt8) :
    decode .data (decline command option) = (.data, declineEvent (.option command option)) := by
  unfold decline declineEvent
  dsimp only
  by_cases hasked : option = optEcho ∨ option = optSga
  · rw [if_pos hasked, if_pos hasked]
    rfl
  rw [if_neg hasked, if_neg hasked]
  by_cases hdo : command = do_
  · rw [hdo]
    rfl
  by_cases hwill : command = will
  · rw [hwill]
    rfl
  rw [if_pos ⟨hdo, hwill⟩, if_neg hdo, if_neg hwill]
  rfl

/-- Only commands decline. -/
theorem commands_declineEvent (event : Event) :
    commands (declineEvent event) = declineEvent event ∧
      dataBytes (declineEvent event) = [] := by
  cases event with
  | option command option =>
    unfold declineEvent
    dsimp only
    split_ifs <;> exact ⟨rfl, rfl⟩
  | data | command | subnegotiation => exact ⟨rfl, rfl⟩

/-- The grammar's state where the parser is. -/
def ParserState.decode : ParserState → DecodeState
  | .data => .data
  | .iac => .iac
  | .option command => .option command
  | .subnegotiation => .subnegotiation
  | .subnegotiationIac => .subnegotiationIac

/-- The parser follows the grammar, and its reply declines what the byte completes. -/
theorem parse_decode (rx : Ringbuf w) (p : Parser) (b : UInt8) :
    (decodeByte b p.state.decode).1 = (parse rx p b).1.state.decode ∧
      decode .data (parse rx p b).2.2 =
        (.data, (decodeByte b p.state.decode).2.flatMap declineEvent) := by
  obtain ⟨state, afterCr⟩ := p
  cases state with
  | data =>
    simp only [ParserState.decode, decodeByte, parse]
    split_ifs <;> exact ⟨rfl, rfl⟩
  | iac =>
    simp only [ParserState.decode, decodeByte, parse]
    split_ifs <;> exact ⟨rfl, rfl⟩
  | option command =>
    refine ⟨rfl, (decode_decline command b).trans ?_⟩
    simp [ParserState.decode, decodeByte]
  | subnegotiation =>
    simp only [ParserState.decode, decodeByte, parse]
    split_ifs <;> exact ⟨rfl, rfl⟩
  | subnegotiationIac =>
    simp only [ParserState.decode, decodeByte, parse]
    split_ifs <;> exact ⟨rfl, rfl⟩

theorem parse_commands (rx : Ringbuf w) (p : Parser) (b : UInt8) :
    commands (decode .data (parse rx p b).2.2).2 = (decode .data (parse rx p b).2.2).2 ∧
      dataBytes (decode .data (parse rx p b).2.2).2 = [] := by
  rw [(parse_decode rx p b).2]
  induction (decodeByte b p.state.decode).2 with
  | nil => exact ⟨rfl, rfl⟩
  | cons event events ih =>
    obtain ⟨hcommands, hdata⟩ := commands_declineEvent event
    rw [List.flatMap_cons, commands_append, dataBytes_append, hcommands, hdata, ih.1, ih.2]
    exact ⟨rfl, rfl⟩

/-! ## The invariant -/

/-- What `flush_output` has collected. -/
def Pc.collected : Pc → List UInt8
  | .gather raw _ => raw
  | _ => []

/-- Writers may queue. -/
def Pc.attached : Pc → Bool
  | .loop | .parsing _ | .gather _ false | .leave => true
  | _ => false

theorem Pc.attached_gather (raw raw' : List UInt8) (closing : Bool) :
    (Pc.gather raw closing).attached = (Pc.gather raw' closing).attached := by
  cases closing <;> rfl

/-- The bytes in the queue that belong to this connection. -/
def Pc.waiting (pc : Pc) (tx : Ringbuf w) : List UInt8 :=
  match pc with
  | .clear => []
  | _ => tx.unread

theorem Pc.waiting_of_ne {pc : Pc} (h : pc ≠ .clear) (tx : Ringbuf w) :
    pc.waiting tx = tx.unread := by
  unfold waiting
  split
  · exact absurd rfl h
  · rfl

namespace System

variable {s t : System w}

/-- What was sent decodes to these events, and nothing of what was queued is lost. -/
structure Out (s : System w) (events : List Event) : Prop where
  decoded : decode .data s.sent = (.data, events)
  queued : dataBytes events ++ s.pc.collected ++ s.pc.waiting s.server.tx = s.queued
  commands : commands events = (decode .data s.received).2.flatMap declineEvent

structure Inv (s : System w) : Prop where
  out : ∃ events, s.Out events
  parser : s.parser.state.decode = (decode .data s.received).1
  active : s.server.active = s.pc.attached
  drained : s.pc = .done → s.server.tx.unread = []

theorem inv_start (tx rx : Ringbuf w) (stopping : Bool) : (start tx rx stopping).Inv where
  out := ⟨[], rfl, rfl, rfl⟩
  parser := rfl
  active := rfl
  drained := nofun

theorem step_write_inactive (hactive : s.server.active = false) (bytes : List UInt8) :
    s.step (.write bytes) = some s := by
  have hnot : ¬s.server.active = true := by
    rw [hactive]
    nofun
  simp only [step, Server.write, if_neg hnot, List.append_nil]

/-- Writers put bytes behind those that wait. -/
theorem step_write_active (hactive : s.server.active = true) (bytes : List UInt8) :
    ∃ tx put, tx.unread = s.server.tx.unread ++ put ∧ s.step (.write bytes) =
      some { s with server := { s.server with tx := tx }, queued := s.queued ++ put } := by
  obtain ⟨put, hbytes, hunread⟩ := putAll_spec s.server.tx bytes
  have hput : bytes.take (bytes.length - (putAll s.server.tx bytes).2.length) = put := by
    have hlen := congrArg List.length hbytes
    rw [List.length_append] at hlen
    have hcount : bytes.length - (putAll s.server.tx bytes).2.length = put.length := by omega
    rw [hcount]
    conv_lhs => rw [hbytes]
    exact List.take_left
  refine ⟨_, put, hunread, ?_⟩
  simp only [step, Server.write, if_pos hactive, hput]

theorem Inv.write (h : s.Inv) (bytes : List UInt8) (hstep : s.step (.write bytes) = some t) :
    t.Inv := by
  by_cases hactive : s.server.active = true
  · have hattached := h.active.symm.trans hactive
    have hclear : s.pc ≠ .clear := by
      intro hpc
      rw [hpc] at hattached
      cases hattached
    have hdone : s.pc ≠ .done := by
      intro hpc
      rw [hpc] at hattached
      cases hattached
    obtain ⟨tx, put, hunread, hwrite⟩ := step_write_active hactive bytes
    obtain rfl := Option.some.inj (hwrite.symm.trans hstep)
    obtain ⟨events, hdecoded, hqueued, hcommands⟩ := h.out
    refine ⟨⟨events, hdecoded, ?_, hcommands⟩, h.parser, h.active, fun hpc => absurd hpc hdone⟩
    change dataBytes events ++ s.pc.collected ++ s.pc.waiting tx = s.queued ++ put
    rw [← hqueued, Pc.waiting_of_ne hclear, Pc.waiting_of_ne hclear, hunread]
    simp only [List.append_assoc]
  · rw [Bool.not_eq_true] at hactive
    obtain rfl := Option.some.inj ((step_write_inactive hactive bytes).symm.trans hstep)
    exact h

/-! ## The session -/

/-- A step of the session that sends these bytes, if any. -/
theorem Inv.go (h : s.Inv) {pc : Pc} (hclear : s.pc ≠ .clear) (hclear' : pc ≠ .clear)
    (hattached : pc.attached = s.pc.attached) (hdone : pc ≠ .done) {data : List UInt8}
    {more : List Event} (hdata : decode .data data = (.data, more)) (hcommands : commands more = [])
    (hmoved : dataBytes more ++ pc.collected = s.pc.collected) :
    ({ s with sent := s.sent ++ data, pc := pc } : System w).Inv := by
  obtain ⟨events, hdecoded, hqueued, hevents⟩ := h.out
  refine ⟨⟨events ++ more, ?_, ?_, ?_⟩, h.parser, h.active.trans hattached.symm,
    fun hpc => absurd hpc hdone⟩
  · rw [decode_append, hdecoded, hdata]
  · change dataBytes (events ++ more) ++ pc.collected ++ pc.waiting s.server.tx = s.queued
    rw [← hqueued, Pc.waiting_of_ne hclear, Pc.waiting_of_ne hclear', dataBytes_append, ← hmoved]
    simp only [List.append_assoc]
  · rw [commands_append, hcommands, List.append_nil]
    exact hevents

theorem Inv.move (h : s.Inv) {pc : Pc} (hclear : s.pc ≠ .clear) (hclear' : pc ≠ .clear)
    (hattached : pc.attached = s.pc.attached) (hdone : pc ≠ .done)
    (hcollected : pc.collected = s.pc.collected) : ({ s with pc := pc } : System w).Inv := by
  have hgo := h.go hclear hclear' hattached hdone (show decode .data [] = _ from rfl) rfl hcollected
  rw [List.append_nil] at hgo
  exact hgo

/-- A chunk that was collected goes out as data. -/
theorem Inv.flush (h : s.Inv) {raw : List UInt8} {closing : Bool}
    (hpc : s.pc = .gather raw closing) : (s.flush raw closing none).Inv := by
  have hclear : s.pc ≠ .clear := by simp [hpc]
  have hcollected : s.pc.collected = raw := by
    rw [hpc]
    rfl
  obtain ⟨hclear', hattached, hdone, hnone⟩ : Pc.flushed closing ≠ .clear ∧
      (Pc.flushed closing).attached = s.pc.attached ∧ Pc.flushed closing ≠ .done ∧
      (Pc.flushed closing).collected = [] := by
    rw [hpc]
    cases closing with
    | true => exact ⟨nofun, rfl, nofun, rfl⟩
    | false => exact ⟨nofun, rfl, nofun, rfl⟩
  unfold System.flush
  by_cases hraw : raw = []
  · rw [if_pos hraw]
    exact h.move hclear hclear' hattached hdone (by rw [hnone, hcollected, hraw])
  · rw [if_neg hraw]
    refine h.go hclear hclear' hattached hdone (decode_escape raw) (commands_map_data raw) ?_
    rw [hnone, hcollected, dataBytes_map_data, List.append_nil]

/-- A byte of the client is parsed, and its reply goes out. -/
theorem Inv.parsed (h : s.Inv) {b : UInt8} {input : List UInt8} (hpc : s.pc = .parsing (b :: input)) :
    ({ s with
      parser := (parse s.server.rx s.parser b).1
      server := { s.server with rx := (parse s.server.rx s.parser b).2.1 }
      received := s.received ++ [b]
      sent := s.sent ++ (parse s.server.rx s.parser b).2.2
      pc := .parsing input } : System w).Inv := by
  obtain ⟨hstate, hreply⟩ := parse_decode s.server.rx s.parser b
  obtain ⟨hcommands, hdata⟩ := parse_commands s.server.rx s.parser b
  obtain ⟨events, hdecoded, hqueued, hevents⟩ := h.out
  have hactive := h.active
  rw [hpc] at hqueued hactive
  have hreceived : decode .data (s.received ++ [b]) =
      ((parse s.server.rx s.parser b).1.state.decode,
        (decode .data s.received).2 ++ (decodeByte b s.parser.state.decode).2) := by
    rw [decode_append, ← h.parser, ← hstate]
    simp [decode]
  refine ⟨⟨events ++ (decode .data (parse s.server.rx s.parser b).2.2).2, ?_, ?_, ?_⟩, ?_, hactive,
    Pc.noConfusion⟩
  · rw [decode_append, hdecoded, hreply]
  · change dataBytes (events ++ _) ++ [] ++ s.server.tx.unread = s.queued
    rw [dataBytes_append, hdata, List.append_nil]
    exact hqueued
  · rw [commands_append, hcommands, hevents, hreceived, List.flatMap_append, hreply]
  · rw [hreceived]

/-- What was queued before the client came is dropped byte by byte. -/
theorem Inv.serve_clear (h : s.Inv) (hpc : s.pc = .clear) {select : Select}
    (hstep : s.serve select none = some t) : t.Inv := by
  have hactive := h.active
  obtain ⟨events, hdecoded, hqueued, hevents⟩ := h.out
  unfold System.serve at hstep
  rw [hpc] at hstep hqueued hactive
  cases hempty : s.server.tx.isEmpty with
  | true =>
    simp only [getByte_empty hempty] at hstep
    obtain rfl := Option.some.inj hstep
    refine ⟨⟨events, hdecoded, ?_, hevents⟩, h.parser, rfl, nofun⟩
    change dataBytes events ++ [] ++ s.server.tx.unread = s.queued
    rw [isEmpty_iff_unread.mp hempty]
    exact hqueued
  | false =>
    obtain ⟨byte, tx, hget, -⟩ := getByte_spec hempty
    simp only [hget] at hstep
    obtain rfl := Option.some.inj hstep
    exact ⟨⟨events, hdecoded, hqueued, hevents⟩, h.parser, hactive, nofun⟩

/-- The head of the loop sends nothing. -/
theorem Inv.serve_loop (h : s.Inv) (hpc : s.pc = .loop) {select : Select}
    (hstep : s.serve select none = some t) : t.Inv := by
  have hgo (pc : Pc) (hclear : pc ≠ .clear) (hattached : pc.attached = true)
      (hnone : pc.collected = []) (hdone : pc ≠ .done) : ({ s with pc := pc } : System w).Inv := by
    refine h.move (by simp [hpc]) hclear ?_ hdone ?_
    · rw [hpc]
      exact hattached
    · rw [hpc]
      exact hnone
  unfold System.serve at hstep
  rw [hpc] at hstep
  dsimp only at hstep
  split_ifs at hstep
  · obtain rfl := Option.some.inj hstep
    exact hgo .leave nofun rfl rfl nofun
  cases select with
  | failed | closed =>
    obtain rfl := Option.some.inj hstep
    exact hgo .leave nofun rfl rfl nofun
  | quiet =>
    obtain rfl := Option.some.inj hstep
    exact hgo (.gather [] false) nofun rfl rfl nofun
  | input bytes =>
    dsimp only at hstep
    split_ifs at hstep
    obtain rfl := Option.some.inj hstep
    exact hgo (.parsing bytes) nofun rfl rfl nofun

/-- A byte that is collected stays in front of what is still queued. -/
theorem Inv.serve_gather (h : s.Inv) {raw : List UInt8} {closing : Bool}
    (hpc : s.pc = .gather raw closing) {select : Select}
    (hstep : s.serve select none = some t) : t.Inv := by
  have hactive := h.active
  obtain ⟨events, hdecoded, hqueued, hevents⟩ := h.out
  have hflush := h.flush hpc
  unfold System.serve at hstep
  rw [hpc] at hstep hqueued hactive
  dsimp only at hstep
  split_ifs at hstep
  · cases hempty : s.server.tx.isEmpty with
    | true =>
      simp only [getByte_empty hempty] at hstep
      obtain rfl := Option.some.inj hstep
      exact hflush
    | false =>
      obtain ⟨byte, tx, hget, hunread⟩ := getByte_spec hempty
      simp only [hget] at hstep
      obtain rfl := Option.some.inj hstep
      refine ⟨⟨events, hdecoded, ?_, hevents⟩, h.parser,
        hactive.trans (Pc.attached_gather ..), nofun⟩
      change dataBytes events ++ (raw ++ [byte]) ++ tx.unread = s.queued
      rw [← hqueued]
      change _ = dataBytes events ++ raw ++ s.server.tx.unread
      rw [hunread]
      simp only [List.append_assoc, List.singleton_append]
  · obtain rfl := Option.some.inj hstep
    exact hflush

theorem Inv.serve (h : s.Inv) {select : Select} (hstep : s.serve select none = some t) : t.Inv := by
  have hactive := h.active
  obtain ⟨events, hdecoded, hqueued, hevents⟩ := h.out
  cases hpc : s.pc with
  | clear => exact h.serve_clear hpc hstep
  | loop => exact h.serve_loop hpc hstep
  | gather raw closing => exact h.serve_gather hpc hstep
  | parsing input =>
    unfold System.serve at hstep
    rw [hpc] at hstep
    cases input with
    | nil =>
      obtain rfl := Option.some.inj hstep
      exact h.move (by simp [hpc]) nofun (by rw [hpc]; rfl) nofun (by rw [hpc]; rfl)
    | cons b input =>
      have hparsed := h.parsed hpc
      dsimp only at hstep
      split_ifs at hstep with hreply
      · obtain rfl := Option.some.inj hstep
        rw [hreply, List.append_nil] at hparsed
        exact hparsed
      · obtain rfl := Option.some.inj hstep
        exact hparsed
  | leave =>
    unfold System.serve at hstep
    rw [hpc] at hstep hqueued
    obtain rfl := Option.some.inj hstep
    exact ⟨⟨events, hdecoded, hqueued, hevents⟩, h.parser, rfl, nofun⟩
  | drain =>
    unfold System.serve at hstep
    rw [hpc] at hstep hqueued hactive
    obtain rfl := Option.some.inj hstep
    cases hempty : s.server.tx.isEmpty with
    | true =>
      exact ⟨⟨events, hdecoded, hqueued, hevents⟩, h.parser, hactive,
        fun _ => isEmpty_iff_unread.mp hempty⟩
    | false => exact ⟨⟨events, hdecoded, hqueued, hevents⟩, h.parser, hactive, nofun⟩
  | done =>
    unfold System.serve at hstep
    rw [hpc] at hstep
    cases hstep

/-- Nothing but the session and the writers touches the output. -/
theorem Inv.other (h : s.Inv) (rx : Ringbuf w) (stopping disconnect : Bool) :
    ({ s with
      server := { s.server with rx := rx, stopping := stopping, disconnect := disconnect } } :
        System w).Inv := by
  obtain ⟨events, hdecoded, hqueued, hcommands⟩ := h.out
  exact ⟨⟨events, hdecoded, hqueued, hcommands⟩, h.parser, h.active, h.drained⟩

theorem Inv.step (h : s.Inv) {l : Label} (hok : Succeeds s l) (hstep : s.step l = some t) :
    t.Inv := by
  cases l with
  | write bytes => exact h.write bytes hstep
  | read =>
    obtain rfl := Option.some.inj hstep
    exact h.other _ s.server.stopping s.server.disconnect
  | disconnect =>
    obtain rfl := Option.some.inj hstep
    exact h.other s.server.rx s.server.stopping _
  | stop =>
    obtain rfl := Option.some.inj hstep
    exact h.other s.server.rx true s.server.disconnect
  | session select taken =>
    obtain rfl : taken = none := hok
    exact h.serve hstep

/-- The client decodes the bytes that were queued, up to those that are still to be sent, and the
replies. At the end nothing is left. -/
structure Framed (s : System w) (events : List Event) : Prop where
  decoded : decode .data s.sent = (.data, events)
  data : dataBytes events ++ s.pc.collected ++ s.pc.waiting s.server.tx = s.queued
  replies : commands events = (decode .data s.received).2.flatMap declineEvent
  drained : s.pc = .done → dataBytes events = s.queued

theorem Inv.framed (h : s.Inv) : ∃ events, s.Framed events := by
  obtain ⟨events, hdecoded, hqueued, hcommands⟩ := h.out
  refine ⟨events, hdecoded, hqueued, hcommands, fun hdone => ?_⟩
  have hnothing := h.drained hdone
  rw [hdone] at hqueued
  change dataBytes events ++ [] ++ s.server.tx.unread = s.queued at hqueued
  rw [hnothing, List.append_nil, List.append_nil] at hqueued
  exact hqueued

/-- Whatever is queued and received, and in whatever order the tasks take their steps, as long as
the sends succeed. -/
theorem telnet_output_framed (tx rx : Ringbuf w) (stopping : Bool) {ls : List Label} {s : System w}
    (hwithin : Within step Succeeds (start tx rx stopping) ls)
    (hrun : runSteps step (start tx rx stopping) ls = some s) : ∃ events, s.Framed events :=
  Inv.framed (invariant_of_within (fun _ _ _ h hok hstep => Inv.step h hok hstep)
    (inv_start tx rx stopping) hwithin hrun)

instance : ∀ (s : System w) (l : Label), Decidable (Succeeds s l)
  | _, .session _ taken => inferInstanceAs (Decidable (taken = none))
  | _, .write _ | _, .read | _, .disconnect | _, .stop => isTrue trivial

/-- Two slots. -/
def small : Ringbuf 8 where
  data := [7, 7]
  mask := 1
  inCursor := 1
  outCursor := 0
  size := rfl
  power := ⟨1, by decide, rfl⟩

/-- A byte of the last client is dropped. `IAC` is queued with two more bytes, of which one fits;
the client asks for an option, then the connection is ended with a byte in the queue. -/
def declined : List Label :=
  [.session .quiet none, .session .quiet none, .write [255, 1, 2],
    .session (.input [iac, do_, 24]) none] ++ List.replicate 7 (.session .quiet none) ++
  [.write [2], .disconnect] ++ List.replicate 6 (.session .quiet none)

theorem telnet_output_framed_declined :
    ∃ s, runSteps step (start small small false) declined = some s ∧ s.pc = .done ∧
      s.sent = [iac, wont, 24, iac, iac, 1, 2] ∧ ∃ events, s.Framed events := by
  have hrun : ∃ s, runSteps step (start small small false) declined = some s ∧
      s.pc = .done ∧ s.sent = [iac, wont, 24, iac, iac, 1, 2] :=
    ⟨_, rfl, rfl, rfl⟩
  obtain ⟨s, hrun, hdone, hsent⟩ := hrun
  refine ⟨s, hrun, hdone, hsent, ?_⟩
  exact telnet_output_framed small small false (by decide +kernel) hrun

end System
end BekenCam.Telnet
