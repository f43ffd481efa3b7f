import BekenCam.ByteBuffer
import BekenCam.HttpRequest

/-!
# Answering an HTTP request

A response is set up and then sent in pieces. Whether the server is stopping and how much of a piece
the network stack takes is up to the environment: `stop` is the moment at which the server is
stopped, and `taken` says what the `lwip_send` at each moment returns. The moments are the looks at
`stopping` and the sends.
-/
namespace BekenCam.Http

def headerBufSize : ℕ := 192

/-- What a piece is, with the length that a head declares. -/
inductive Part
  | head (declared : Option UInt32)
  | body
  deriving DecidableEq

/-- A piece handed to `lwip_send`. -/
structure Sent where
  part : Part
  data : List UInt8
  more : Bool
  moment : ℕ

structure Wire where
  now : ℕ
  stop : Option ℕ
  taken : ℕ → ℤ
  handed : List Sent

inductive LengthMode
  | auto
  | fixed
  | none
  | sealed
  deriving DecidableEq

/-- `struct http_response`, with the wire in the place of the server and the socket. -/
structure Response where
  wire : Wire
  status : ℤ
  contentType : Option (List UInt8)
  contentEncoding : Option (List UInt8)
  lengthMode : LengthMode
  length : UInt32
  remaining : UInt32
  headersSent : Bool
  more : Bool
  failed : Bool

def reason (status : ℤ) : List UInt8 :=
  ascii <|
    if status = 200 then "OK"
    else if status = 204 then "No Content"
    else if status = 400 then "Bad Request"
    else if status = 404 then "Not Found"
    else if status = 405 then "Method Not Allowed"
    else if status = 413 then "Payload Too Large"
    else if status = 414 then "URI Too Long"
    else if status = 431 then "Request Header Fields Too Large"
    else if status = 500 then "Internal Server Error"
    else if status = 503 then "Service Unavailable"
    else "Status"

def decimal (n : ℤ) : List UInt8 := ascii (toString n)

/-- `vsnprintf` behind what is in the buffer, which has room for the NUL too. -/
def append (buf : List UInt8) (text : List UInt8) : Option (List UInt8) :=
  if text.length < headerBufSize - buf.length then some (buf ++ text) else none

/-- A header line, if there is a value for it. -/
def appendField (buf : List UInt8) (name : String) : Option (List UInt8) → Option (List UInt8)
  | none => some buf
  | some value => append buf (ascii name ++ value ++ ascii "\r\n")

namespace Response

/-- `server->stopping`. -/
def stopping (r : Response) : Bool := r.wire.stop.any (· ≤ r.wire.now)

/-- A moment passes. -/
def tick (r : Response) : Response := { r with wire := { r.wire with now := r.wire.now + 1 } }

/-- A piece is handed to `lwip_send`. -/
def hand (r : Response) (part : Part) (data : List UInt8) (more : Bool) : Response :=
  { r with
    wire := { r.wire with
      now := r.wire.now + 1
      handed := r.wire.handed ++ [⟨part, data, more, r.wire.now⟩] } }

def sendRaw (r : Response) (part : Part) (data : List UInt8) (more : Bool) : Bool × Response :=
  if r.failed then (false, r)
  else if r.stopping then (false, r.tick)
  else if data = [] then (true, r.tick)
  else
    let taken := r.wire.taken r.tick.wire.now
    let r := r.tick.hand part data more
    if taken ≠ data.length then (false, { r with failed := true }) else (true, r)

/-- The length that the head declares. -/
def declared (r : Response) : Option UInt32 :=
  if r.lengthMode = .auto ∨ r.lengthMode = .fixed then some r.length else none

/-- The head, if it fits into its buffer. -/
def formatHead (r : Response) : Option (List UInt8) := do
  let buf ← append [] (ascii "HTTP/1.1 " ++ decimal r.status ++ ascii " " ++ reason r.status ++
    ascii "\r\n")
  let buf ← appendField buf "Content-Type: " r.contentType
  let buf ← appendField buf "Content-Encoding: " r.contentEncoding
  let buf ← appendField buf "Content-Length: " (r.declared.map fun length => decimal length.toNat)
  append buf (ascii "Connection: close\r\n\r\n")

def sendHeaders (r : Response) (more : Bool) : Bool × Response :=
  let buf := r.formatHead
  let declared := r.declared
  let r := { r with headersSent := true }
  match buf with
  | none => (false, { r with failed := true })
  | some buf => r.sendRaw (.head declared) buf more

/-! ## The setters -/

def setStatus (r : Response) (status : ℤ) : Bool × Response :=
  if r.headersSent || decide (status < 100) || decide (599 < status) then (false, r)
  else (true, { r with status := status })

def setContentType (r : Response) (contentType : Option (List UInt8)) : Bool × Response :=
  if r.headersSent then (false, r) else (true, { r with contentType := contentType })

def setContentEncoding (r : Response) (contentEncoding : Option (List UInt8)) : Bool × Response :=
  if r.headersSent then (false, r) else (true, { r with contentEncoding := contentEncoding })

def setContentLength (r : Response) (length : UInt32) : Bool × Response :=
  if r.headersSent then (false, r)
  else (true, { r with lengthMode := .fixed, length := length, remaining := length })

def omitContentLength (r : Response) : Bool × Response :=
  if r.headersSent then (false, r) else (true, { r with lengthMode := .none })

def setMore (r : Response) (more : Bool) : Response := { r with more := more }

end Response

/-! ## The body -/

/-- A body and its length. A pointer that is not null points to as many bytes. -/
structure Body where
  length : UInt32
  data : Option (Octets length.toNat)

/-- The bytes of a body; a null pointer has none. -/
def Body.bytes (body : Body) : List UInt8 := (body.data.map Subtype.val).getD []

/-- A C string, whose length fits a `uint32_t`. -/
abbrev CString := { s : List UInt8 // s.length < 2 ^ 32 }

def Body.ofString : Option CString → Body
  | none => ⟨0, none⟩
  | some s =>
    ⟨UInt32.ofNat s.val.length,
      some ⟨s.val, (Nat.mod_eq_of_lt s.property).symm⟩⟩

namespace Response

/-- With no length set the first body decides it. -/
def decideLength (r : Response) (length : UInt32) : Response :=
  if r.lengthMode = .auto then { r with length := length, remaining := length } else r

/-- The body uses up its length, if there is one to use. -/
def spend (r : Response) (length : UInt32) : Response :=
  if r.lengthMode ≠ .none then { r with remaining := r.remaining - length } else r

/-- With no length set one body is all. -/
def sealLength (r : Response) : Response :=
  if r.lengthMode = .auto then { r with lengthMode := .sealed } else r

/-- The body goes out behind the head. -/
def sendBody (r : Response) (body : Body) : Bool × Response :=
  let (ok, r) := (r.spend body.length).sendRaw .body body.bytes r.more
  (ok, r.sealLength)

def respondBinary (r : Response) (body : Body) : Bool × Response :=
  if r.failed then (false, r)
  else if r.stopping || r.lengthMode == .sealed then (false, r.tick)
  else if body.data.isNone && decide (0 < body.length) then (false, r.tick)
  else
    let r := r.tick.decideLength body.length
    if r.lengthMode ≠ .none ∧ r.remaining < body.length then (false, r)
    else if r.headersSent then r.sendBody body
    else
      let (ok, r) := r.sendHeaders (decide (0 < body.length) || r.more)
      if ok then r.sendBody body else (false, r)

def respondString (r : Response) (body : Option CString) : Bool × Response :=
  r.respondBinary (.ofString body)

/-- An empty reply with just a status, over whatever the handler had set up. -/
def reject (r : Response) (status : ℤ) : Response :=
  if r.headersSent then r
  else
    ({ r with
      status := status
      contentType := none
      contentEncoding := none
      lengthMode := .auto
      more := false }.respondBinary ⟨0, none⟩).2

/-- The response of a connection just taken. -/
def start (stop : Option ℕ) (taken : ℕ → ℤ) : Response where
  wire := ⟨0, stop, taken, []⟩
  status := 200
  contentType := none
  contentEncoding := none
  lengthMode := .auto
  length := 0
  remaining := 0
  headersSent := false
  more := false
  failed := false

/-! ## Calls -/

inductive Call
  | setStatus (status : ℤ)
  | setContentType (contentType : Option (List UInt8))
  | setContentEncoding (contentEncoding : Option (List UInt8))
  | setContentLength (length : UInt32)
  | omitContentLength
  | setMore (more : Bool)
  | respondBinary (body : Body)
  | respondString (body : Option CString)

def call (r : Response) : Call → Bool × Response
  | .setStatus status => r.setStatus status
  | .setContentType contentType => r.setContentType contentType
  | .setContentEncoding contentEncoding => r.setContentEncoding contentEncoding
  | .setContentLength length => r.setContentLength length
  | .omitContentLength => r.omitContentLength
  | .setMore more => (true, r.setMore more)
  | .respondBinary body => r.respondBinary body
  | .respondString body => r.respondString body

def calls (r : Response) (cs : List Call) : Response := cs.foldl (fun r c => (r.call c).2) r

end Response

/-- The response of a connection, when the handler makes these calls. -/
def serve (decision : Decision) (cs : List Response.Call) (stop : Option ℕ) (taken : ℕ → ℤ) :
    Response :=
  match decision with
  | .dropped => .start stop taken
  | .rejected status => (Response.start stop taken).reject status
  | .handled _ => ((Response.start stop taken).calls cs).reject 500

end BekenCam.Http
