import BekenCam.RingBuffer
import BekenCam.StepRuns
import BekenCam.TelnetGrammar

/-!
# The Telnet server

One connection, from behind the greeting to its end. Tasks queue output in critical sections, each of
which is one step; what does not fit is tried again in another section. The session takes the bytes
out one by one, and sends what it has collected or a reply to an option.
-/
namespace BekenCam.Telnet

def chunk : ℕ := 128
def optEcho : UInt8 := 1
def optSga : UInt8 := 3

variable {w : ℕ}

structure Server (w : ℕ) where
  active : Bool
  stopping : Bool
  disconnect : Bool
  tx : Ringbuf w
  rx : Ringbuf w

/-! ## Output -/

/-- Puts the bytes as long as there is room; the rest is left. -/
def putAll (ring : Ringbuf w) : List UInt8 → Ringbuf w × List UInt8
  | [] => (ring, [])
  | byte :: bytes =>
    match ring.putByte byte with
    | (true, ring) => putAll ring bytes
    | (false, _) => (ring, byte :: bytes)

/-- The critical section of `telnet_server_write`, with the bytes that are left. -/
def Server.write (server : Server w) (bytes : List UInt8) : Server w × List UInt8 :=
  if server.active then
    let (tx, rest) := putAll server.tx bytes
    ({ server with tx := tx }, rest)
  else (server, [])

/-! ## Input -/

inductive ParserState
  | data
  | iac
  | option (command : UInt8)
  | subnegotiation
  | subnegotiationIac
  deriving DecidableEq

structure Parser where
  state : ParserState
  afterCr : Bool

/-- The reply that declines what the client offers or asks for; it is empty for the options that
the server asked for, and for the answers. -/
def decline (command option : UInt8) : List UInt8 :=
  if option = optEcho ∨ option = optSga then []
  else if command ≠ do_ ∧ command ≠ will then []
  else [iac, if command = do_ then wont else dont, option]

/-- One byte from the client. The last result is the reply. -/
def parse (rx : Ringbuf w) (p : Parser) (b : UInt8) : Parser × Ringbuf w × List UInt8 :=
  match p.state with
  | .data =>
    if b = iac then ({ p with state := .iac }, rx, [])
    else if p.afterCr = true ∧ (b = 0 ∨ b = 10) then ({ p with afterCr := false }, rx, [])
    else ({ p with afterCr := b == 13 }, (rx.putByte b).2, [])
  | .iac =>
    if b = iac then ({ p with state := .data }, (rx.putByte iac).2, [])
    else if will ≤ b ∧ b ≤ dont then ({ p with state := .option b }, rx, [])
    else if b = sb then ({ p with state := .subnegotiation }, rx, [])
    else ({ p with state := .data }, rx, [])
  | .option command => ({ p with state := .data }, rx, decline command b)
  | .subnegotiation =>
    (if b = iac then { p with state := .subnegotiationIac } else p, rx, [])
  | .subnegotiationIac =>
    ({ p with state := if b = se then .data else .subnegotiation }, rx, [])

/-! ## The session -/

/-- The next step of `serve`. -/
inductive Pc
  -- `set_active(server, true)`: what the last client left goes
  | clear
  | loop
  | parsing (input : List UInt8)
  -- `flush_output`, in the loop or in the final drain
  | gather (raw : List UInt8) (closing : Bool)
  -- `set_active(server, false)`, then the drain
  | leave
  | drain
  | done

/-- Where a flush that succeeds goes on. -/
def Pc.flushed (closing : Bool) : Pc := if closing then .drain else .loop

/-- What `lwip_select` and `lwip_recv` say. -/
inductive Select
  | failed
  | quiet
  | closed
  | input (bytes : List UInt8)

/-- `sent` is what the stack took behind the greeting. `queued` and `received` only record: the bytes
that were put into the output queue and those that were parsed. -/
structure System (w : ℕ) where
  server : Server w
  parser : Parser
  pc : Pc
  sent : List UInt8
  queued : List UInt8
  received : List UInt8

/-- A send takes everything, or fails after `taken` bytes. -/
inductive Label
  | write (bytes : List UInt8)
  | read
  | disconnect
  | stop
  | session (select : Select) (taken : Option ℕ)

namespace System

variable (s : System w)

/-- `send_all`, and where it goes on when it succeeds or fails. -/
def send (data : List UInt8) (taken : Option ℕ) (ok failed : Pc) : System w :=
  match taken with
  | none => { s with sent := s.sent ++ data, pc := ok }
  | some k => { s with sent := s.sent ++ data.take k, pc := failed }

/-- `flush_output` has collected `raw`. -/
def flush (raw : List UInt8) (closing : Bool) (taken : Option ℕ) : System w :=
  if raw = [] then { s with pc := .flushed closing }
  else s.send (escape raw) taken (.flushed closing) (if closing then .done else .leave)

/-- A step of the session. -/
def serve (select : Select) (taken : Option ℕ) : Option (System w) :=
  match s.pc with
  | .clear =>
    match s.server.tx.getByte with
    | (some _, tx) => some { s with server := { s.server with tx := tx } }
    | (none, _) => some { s with server := { s.server with active := true }, pc := .loop }
  | .loop =>
    if s.server.stopping || s.server.disconnect then some { s with pc := .leave }
    else
      match select with
      | .failed | .closed => some { s with pc := .leave }
      | .quiet => some { s with pc := .gather [] false }
      | .input bytes =>
        if 0 < bytes.length ∧ bytes.length ≤ chunk then some { s with pc := .parsing bytes }
        else none
  | .parsing [] => some { s with pc := .gather [] false }
  | .parsing (b :: input) =>
    let (parser, rx, reply) := parse s.server.rx s.parser b
    let s :=
      { s with
        parser := parser
        server := { s.server with rx := rx }
        received := s.received ++ [b] }
    if reply = [] then some { s with pc := .parsing input }
    else some (s.send reply taken (.parsing input) .leave)
  | .gather raw closing =>
    if raw.length < chunk then
      match s.server.tx.getByte with
      | (some byte, tx) =>
        some { s with server := { s.server with tx := tx }, pc := .gather (raw ++ [byte]) closing }
      | (none, _) => some (s.flush raw closing taken)
    else some (s.flush raw closing taken)
  | .leave => some { s with server := { s.server with active := false }, pc := .drain }
  | .drain => some { s with pc := if s.server.tx.isEmpty then .done else .gather [] true }
  | .done => none

def step (s : System w) : Label → Option (System w)
  | .write bytes =>
    let (server, rest) := s.server.write bytes
    let put := if s.server.active then bytes.take (bytes.length - rest.length) else []
    some { s with server := server, queued := s.queued ++ put }
  | .read => some { s with server := { s.server with rx := s.server.rx.getByte.2 } }
  | .disconnect =>
    some { s with
      server := { s.server with disconnect := s.server.disconnect || s.server.active } }
  | .stop => some { s with server := { s.server with stopping := true } }
  | .session select taken => s.serve select taken

/-- The greeting has gone out. The queues hold whatever the last client left. -/
def start (tx rx : Ringbuf w) (stopping : Bool) : System w where
  server := ⟨false, stopping, false, tx, rx⟩
  parser := ⟨.data, false⟩
  pc := .clear
  sent := []
  queued := []
  received := []

/-- The sends succeed. -/
def Succeeds (_ : System w) : Label → Prop
  | .session _ taken => taken = none
  | _ => True

end System
end BekenCam.Telnet
