import Mathlib.Tactic

/-!
# Reading an HTTP request

The head is read in chunks as they come from the socket, one byte at a time through a small state;
what came behind the head in the last chunk is kept for the body. A C string is the list of its
bytes without the NUL, and a socket is what is to come over it and how it will be cut.
-/
namespace BekenCam.Http

def requestBufSize : ℕ := 256
def headLimit : ℕ := 2048
def chunkSize : ℕ := 128
def lineSize : ℕ := 32

def ascii (s : String) : List UInt8 := s.toList.map fun c => UInt8.ofNat c.toNat

def lf : UInt8 := 10
def cr : UInt8 := 13
def space : UInt8 := 32

/-! ## The socket -/

/-- The `k`-th `lwip_recv` returns at most `cuts k + 1` bytes. -/
structure Socket where
  incoming : List UInt8
  cuts : ℕ → ℕ
  calls : ℕ

/-- `lwip_recv` with room for `size` bytes. There is no result when nothing is to come any more. -/
def Socket.recv (socket : Socket) (size : ℕ) : Option (List UInt8 × Socket) :=
  if socket.incoming = [] then none
  else
    let n := min size (socket.cuts socket.calls + 1)
    some (socket.incoming.take n,
      { socket with incoming := socket.incoming.drop n, calls := socket.calls + 1 })

/-! ## The head -/

/-- `tolower` in the C locale. -/
def toLower (b : UInt8) : UInt8 := if 65 ≤ b ∧ b ≤ 90 then b + 32 else b

def isSpace (b : UInt8) : Bool := b == 32 || decide (9 ≤ b ∧ b ≤ 13)

def isDigit (b : UInt8) : Bool := decide (48 ≤ b ∧ b ≤ 57)

def digitsValue (digits : List UInt8) : ℕ :=
  digits.foldl (fun value b => value * 10 + (b.toNat - 48)) 0

/-- `strtoul(s, NULL, 10)`, where `unsigned long` has 32 bits. -/
def strtoul (s : List UInt8) : UInt32 :=
  let s := s.dropWhile isSpace
  let negative := s.head? == some 45
  let s := if negative || s.head? == some 43 then s.drop 1 else s
  let value := digitsValue (s.takeWhile isDigit)
  if 2 ^ 32 ≤ value then 0xFFFFFFFF
  else if negative then 0 - UInt32.ofNat value else UInt32.ofNat value

def contentLengthName : List UInt8 := ascii "content-length:"

/-- The content length after the header line `line`. -/
def scanHeader (contentLength : UInt32) (line : List UInt8) : UInt32 :=
  if (line.take contentLengthName.length).map toLower = contentLengthName then
    strtoul (line.drop contentLengthName.length)
  else contentLength

/-- What `read_head` carries from byte to byte. -/
structure HeadState where
  kept : List UInt8
  truncated : Bool
  line : List UInt8
  seen : ℕ
  contentLength : UInt32

def HeadState.init : HeadState := ⟨[], false, [], 0, 0⟩

def HeadState.keep (st : HeadState) (b : UInt8) : HeadState :=
  if st.kept.length < requestBufSize - 1 then { st with kept := st.kept ++ [b] }
  else { st with truncated := true }

def HeadState.collect (st : HeadState) (b : UInt8) : HeadState :=
  if b = lf then { st with contentLength := scanHeader st.contentLength st.line, line := [] }
  else if st.line.length < lineSize - 1 then { st with line := st.line ++ [b] }
  else st

/-- How much of the blank line has matched after `b`. -/
def nextSeen (seen : ℕ) (b : UInt8) : ℕ :=
  let expected := if seen % 2 = 0 then cr else lf
  if b = expected then seen + 1 else if b = cr then 1 else 0

def HeadState.byte (st : HeadState) (b : UInt8) : HeadState :=
  { (st.keep b).collect b with seen := nextSeen st.seen b }

/-- The loop over a chunk. When the head ends in it, what follows is the second result. -/
def scanChunk (st : HeadState) : List UInt8 → HeadState × Option (List UInt8)
  | [] => (st, none)
  | b :: chunk =>
    let st := st.byte b
    if st.seen = 4 then (st, some chunk) else scanChunk st chunk

inductive HeadResult
  | lost
  | tooLarge
  | ok (head : HeadState) (pending : List UInt8)

/-- The loop of `read_head` with `total` bytes behind it. Every round has a byte at least, so
`headLimit + 1` rounds are enough. -/
def readHeadLoop : (fuel : ℕ) → HeadState → (total : ℕ) → Socket → HeadResult × Socket
  | 0, _, _, socket => (.tooLarge, socket)
  | fuel + 1, st, total, socket =>
    match socket.recv chunkSize with
    | none => (.lost, socket)
    | some (chunk, socket) =>
      match scanChunk st chunk with
      | (st, some pending) => (.ok st pending, socket)
      | (st, none) =>
        let total := total + chunk.length
        if headLimit < total then (.tooLarge, socket) else readHeadLoop fuel st total socket

def readHead (socket : Socket) : HeadResult × Socket :=
  readHeadLoop (headLimit + 1) .init 0 socket

/-! ## The request line -/

/-- `http_request_t`. -/
structure Request where
  method : List UInt8
  path : List UInt8
  query : List UInt8
  contentLength : UInt32
  deriving DecidableEq

/-- The request, or the status to answer with. The version behind the path is not looked at. -/
def parseRequestLine (head : HeadState) : Except ℕ Request :=
  let line := head.kept.takeWhile fun b => b != cr && b != lf
  if line.length = head.kept.length then .error (if head.truncated then 414 else 400)
  else
    let text := line.takeWhile (· != 0)
    let method := text.takeWhile (· != space)
    if method.length = text.length ∨ method = [] then .error 400
    else
      let path := text.drop (method.length + 1)
      if path.head? ≠ some 47 then .error 400
      else
        let target := path.takeWhile (· != space)
        let path := target.takeWhile (· != 63)
        .ok ⟨method, path, target.drop (path.length + 1), head.contentLength⟩

/-! ## The body -/

/-- `struct http_conn`: the body bytes that came with the head, and those not yet handed out. -/
structure Conn where
  socket : Socket
  pending : List UInt8
  bodyLeft : ℕ

/-- The loop of `http_request_read_body`; `out` is what is in the buffer. Every round puts a byte
there at least, so `size` rounds are enough. -/
def readBodyLoop (size : ℕ) : (fuel : ℕ) → Conn → List UInt8 → Option (List UInt8) × Conn
  | 0, conn, out => (some out, conn)
  | fuel + 1, conn, out =>
    if out.length < size ∧ 0 < conn.bodyLeft then
      let want := min (size - out.length) conn.bodyLeft
      if conn.pending = [] then
        match conn.socket.recv want with
        | none => (none, conn)
        | some (got, socket) =>
          readBodyLoop size fuel
            { conn with socket := socket, bodyLeft := conn.bodyLeft - got.length } (out ++ got)
      else
        let got := conn.pending.take want
        readBodyLoop size fuel
          { conn with
            pending := conn.pending.drop want
            bodyLeft := conn.bodyLeft - got.length } (out ++ got)
    else (some out, conn)

/-- What is put into a buffer of `size` bytes, or nothing for `-1`. No buffer is so large that the
number of its bytes does not fit an `int`. -/
def readBody (conn : Conn) (size : ℕ) : Option (List UInt8) × Conn :=
  readBodyLoop size size conn []

/-- Reads into one buffer after the other. -/
def readBodies : Conn → List ℕ → List (Option (List UInt8))
  | _, [] => []
  | conn, size :: sizes => (readBody conn size).1 :: readBodies (readBody conn size).2 sizes

/-! ## Serving -/

/-- What `serve` does with a connection. -/
inductive Decision
  | dropped
  | rejected (status : ℕ)
  | handled (request : Request)
  deriving DecidableEq

/-- The decision, and the connection that the handler reads the body from. -/
def serveRequest (socket : Socket) : Decision × Conn :=
  match readHead socket with
  | (.lost, socket) => (.dropped, ⟨socket, [], 0⟩)
  | (.tooLarge, socket) => (.rejected 431, ⟨socket, [], 0⟩)
  | (.ok head pending, socket) =>
    match parseRequestLine head with
    | .error status => (.rejected status, ⟨socket, pending, 0⟩)
    | .ok request => (.handled request, ⟨socket, pending, request.contentLength.toNat⟩)

end BekenCam.Http
