import BekenCam.CameraWrap
import BekenCam.HttpAnswer
import BekenCam.HttpContentLength
import BekenCam.Records
import BekenCam.ScanJson

/-!
# The MJPEG stream

A request for the stream is answered with one frame of the camera after another, each as a part with
a head that has its length. The frames are taken from the camera's slots while the interrupt fills
others, and the network stack copies a frame while it sends it.
-/
namespace BekenCam.Mjpeg

open Camera Http
open ScanJson (ascii_toString isDigits_ascii)

def boundary : List UInt8 := ascii "frame"

def partHead (size : ℕ) : List UInt8 :=
  ascii "--" ++ boundary ++ ascii "\r\nContent-Type: image/jpeg\r\nContent-Length: " ++
    decimal size ++ ascii "\r\n\r\n"

/-- `sizeof(part)`. -/
def partBufSize : ℕ := 96

/-- `snprintf` never cuts the head of a part. -/
theorem length_partHead (size : UInt32) : (partHead size.toNat).length < partBufSize := by
  have hsize := size.toNat_lt
  have hdigits : (decimal size.toNat).length ≤ 10 := by
    show (ascii (toString size.toNat)).length ≤ 10
    rw [ascii_toString, List.length_map, Nat.length_toDigits_le_iff (by decide) (by decide)]
    omega
  have hrest : (ascii "--" ++ boundary ++
      ascii "\r\nContent-Type: image/jpeg\r\nContent-Length: ").length = 51 := by decide
  have hend : (ascii "\r\n\r\n").length = 4 := by decide
  rw [partHead, List.length_append, List.length_append, hrest, hend, partBufSize]
  omega

def crlf : CString := ⟨ascii "\r\n", by decide⟩

/-! ## What a client reads -/

/-- A part with a JPEG of any length. -/
def part (jpeg : List UInt8) : List UInt8 := partHead jpeg.length ++ jpeg ++ crlf.val

def readPart : Reader UInt8 (List UInt8) :=
  (Reader.literal (ascii "--" ++ boundary ++
    ascii "\r\nContent-Type: image/jpeg\r\nContent-Length: ")).bind fun _ =>
  (Reader.span isDigit).bind fun digits =>
  (Reader.literal (ascii "\r\n\r\n")).bind fun _ =>
  (Reader.symbols (digitsValue digits)).bind fun jpeg =>
  (Reader.literal crlf.val).bind fun _ =>
  Reader.pure jpeg

theorem digitsValue_decimal (n : ℕ) : digitsValue (decimal n) = n := by
  show digitsValue (ascii (toString n)) = n
  rw [ascii_toString]
  induction n using Nat.strong_induction_on with
  | _ n ih =>
    have hdigit : ∀ d < 10, digitsValue [UInt8.ofNat (Nat.digitChar d).toNat] = d := by decide
    rw [Nat.toDigits_eq_if (by decide)]
    split_ifs with hsmall
    · exact hdigit n hsmall
    · rw [List.map_append, digitsValue_append, ih (n / 10) (by omega), List.map_singleton,
        hdigit _ (Nat.mod_lt _ (by decide)), List.length_singleton]
      omega

theorem isDigit_decimal (n : ℕ) : ∀ b ∈ decimal n, isDigit b = true := by
  intro b hb
  have hdigits := isDigits_ascii n b hb
  rw [isDigit, decide_eq_true_eq]
  exact hdigits

theorem readPart_part (jpeg : List UInt8) : readPart (part jpeg) = some (jpeg, []) := by
  have hdigits : Reader.span isDigit (decimal jpeg.length ++ (ascii "\r\n\r\n" ++
      (jpeg ++ crlf.val))) = some (decimal jpeg.length,
        ascii "\r\n\r\n" ++ (jpeg ++ crlf.val)) :=
    Reader.span_append (isDigit_decimal jpeg.length) (by decide)
  have hend : Reader.literal crlf.val crlf.val = some ((), []) := by decide
  rw [part, partHead, List.append_assoc, List.append_assoc, List.append_assoc, readPart,
    Reader.bind_eq (Reader.literal_append ..), Reader.bind_eq hdigits,
    Reader.bind_eq (Reader.literal_append ..), digitsValue_decimal,
    Reader.bind_eq (Reader.symbols_append ..), Reader.bind_eq hend]
  rfl

theorem steady_readPart : readPart.Steady :=
  (Reader.steady_literal _).bind fun _ => (Reader.steady_span _).bind fun _ =>
    (Reader.steady_literal _).bind fun _ => (Reader.steady_symbols _).bind fun _ =>
      (Reader.steady_literal _).bind fun _ => Reader.steady_pure _

/-- `multipart/x-mixed-replace`. -/
def multipart : Format UInt8 (List UInt8) where
  write := part
  read := readPart
  write_ne jpeg := by simp [part, crlf, ascii]
  read_write := readPart_part
  steady := steady_readPart

/-! ## A response without a length -/

/-- The bytes of the bodies handed over so far; what has arrived is a front part of them. -/
def bodyText (r : Response) : List UInt8 :=
  (r.wire.handed.filter fun piece => piece.part = .body).flatMap Sent.data

/-- `r'` is what a body leaves of `r`. -/
structure Answer (r : Response) (bytes : List UInt8) (ok : Bool) (r' : Response) : Prop where
  mode : r'.lengthMode = .none
  sent : ok = true → bodyText r' = bodyText r ++ bytes
  lost : ok = false → r'.Dead ∧ (bodyText r' = bodyText r ∨ bodyText r' = bodyText r ++ bytes)

section Answer

variable {r : Response}

theorem spend_none (hmode : r.lengthMode = .none) (length : UInt32) : r.spend length = r := by
  rw [Response.spend, if_neg (by simp [hmode])]

theorem sealLength_none (hmode : r.lengthMode = .none) : r.sealLength = r := by
  rw [Response.sealLength, if_neg (by simp [hmode])]

theorem decideLength_none (hmode : r.lengthMode = .none) (length : UInt32) :
    r.decideLength length = r := by
  rw [Response.decideLength, if_neg (by simp [hmode])]

theorem Answer.congr {r₀ r' : Response} {bytes : List UInt8} {ok : Bool} (h : Answer r bytes ok r')
    (htext : bodyText r = bodyText r₀) : Answer r₀ bytes ok r' :=
  ⟨h.mode, htext ▸ h.sent, htext ▸ h.lost⟩

/-- A head is no body. -/
theorem hand_head (r : Response) (declared : Option UInt32) (buf : List UInt8) (more : Bool) :
    bodyText (r.hand (.head declared) buf more) = bodyText r := by
  simp [bodyText, Response.hand, List.filter_append]

theorem sendHeaders_mode (r : Response) (more : Bool) :
    (r.sendHeaders more).2.lengthMode = r.lengthMode := by
  unfold Response.sendHeaders
  cases r.formatHead with
  | none => rfl
  | some buf =>
    rcases Response.sendRaw_cases { r with headersSent := true } (.head r.declared) buf more with
      ⟨-, hsend | hsend⟩ | ⟨-, -, hsend⟩ | ⟨-, -, ok, hsend⟩ <;> dsimp only <;> rw [hsend] <;> rfl

theorem sendBody_answer (hmode : r.lengthMode = .none) (body : Body) :
    Answer r body.bytes (r.sendBody body).1 (r.sendBody body).2 := by
  rcases r.sendBody_cases body with ⟨hdead, r', hr', hsend⟩ | ⟨-, hnil, hsend⟩ | ⟨-, -, ok, hsend⟩
  · rw [hsend]
    rw [spend_none hmode] at hr'
    rcases hr' with rfl | rfl
    · rw [sealLength_none hmode]
      exact ⟨hmode, nofun, fun _ => ⟨hdead, .inl rfl⟩⟩
    · rw [sealLength_none (r := r.tick) hmode]
      exact ⟨hmode, nofun, fun _ => ⟨hdead.tick, .inl rfl⟩⟩
  · rw [hsend, spend_none hmode, sealLength_none (r := r.tick) hmode, hnil]
    exact ⟨hmode, fun _ => (List.append_nil _).symm, nofun⟩
  · have htext : bodyText (r.tick.hand .body body.bytes r.more) = bodyText r ++ body.bytes := by
      simp [bodyText, Response.hand, Response.tick, List.filter_append]
    rw [hsend, spend_none hmode, sealLength_none]
    · refine ⟨hmode, fun _ => htext, fun hok => ⟨.inl ?_, .inr htext⟩⟩
      obtain rfl : ok = false := hok
      rfl
    · exact hmode

theorem respondBinary_answer (hmode : r.lengthMode = .none) (body : Body) (hdata : body.data ≠ none) :
    Answer r body.bytes (r.respondBinary body).1 (r.respondBinary body).2 := by
  by_cases hdead : r.Dead
  · rcases Response.respondBinary_refused (Response.dead_refuses hdead body) with h | h <;> rw [h]
    · exact ⟨hmode, by simp, fun _ => ⟨hdead, .inl rfl⟩⟩
    · exact ⟨hmode, by simp, fun _ => ⟨hdead.tick, .inl rfl⟩⟩
  have htaken : ¬r.Refuses body := by
    simp [Response.Refuses, hdead, hmode, hdata]
  rw [Response.respondBinary_taken htaken, decideLength_none (r := r.tick) hmode]
  split_ifs with hsent
  · exact (sendBody_answer (r := r.tick) hmode body).congr rfl
  have hmode' := (sendHeaders_mode r.tick (decide (0 < body.length) || r.more)).trans hmode
  rcases r.tick.sendHeaders_cases (decide (0 < body.length) || r.more) with
    ⟨r', hsend, hdead', -, hwire⟩ | ⟨-, ok, buf, -, hsend⟩
  · rw [hsend] at hmode' ⊢
    refine ⟨hmode', by simp, fun _ => ⟨hdead', .inl ?_⟩⟩
    show bodyText r' = bodyText r
    unfold bodyText
    rcases hwire with hwire | hwire <;> rw [hwire] <;> rfl
  · rw [hsend] at hmode' ⊢
    have htext := hand_head r.tick.tick r.tick.declared buf (decide (0 < body.length) || r.more)
    cases ok with
    | true => exact (sendBody_answer hmode' body).congr htext
    | false => exact ⟨hmode', by simp, fun _ => ⟨.inl rfl, .inl htext⟩⟩

end Answer

/-! ## `stream_frames` -/

variable {c : StreamConfig}

/-- The head of a part, out of `part[96]`. -/
def partBody (size : UInt32) : Body :=
  ⟨UInt32.ofNat (partHead size.toNat).length, some ⟨partHead size.toNat, by
    have hlt := length_partHead size
    rw [UInt32.toNat_ofNat_of_lt' (hlt.trans (by decide))]⟩⟩

/-- A byte behind the pointer of a frame. -/
def frameByte (stream : Stream c) (frame : Frame) (i : ℕ) : UInt8 :=
  if h : frame.data / c.slotSize < c.slotCount then
    (stream.memory ⟨frame.data / c.slotSize, h⟩).getD i 0
  else 0

/-- What a step in `camera_stream_get` leads to. -/
inductive Got
  | running
  | eagain
  | frame (k : ℕ)

/-- The task calls `camera_stream_get`, or goes on in it. -/
def getStep (camera : System c) : Option (Got × System c) :=
  match camera.get with
  | .idle => (camera.step .get).map fun camera' =>
    (match camera'.get with
    | .idle => .eagain
    | _ => .running, camera')
  | .advance _ => (camera.step .getStep).map fun camera' => (.frame camera.taken.length, camera')
  | _ => (camera.step .getStep).map fun camera' => (.running, camera')

/-- The next step of the task. A frame is named by its place in `taken`. -/
inductive Pc
  | poll
  | newer (k : ℕ)
  | swap (k l : ℕ)
  | head (k : ℕ)
  | data (k : ℕ) (read : List UInt8)
  | tail (k : ℕ) (ok : Bool)
  | release (k : ℕ) (ok : Bool)
  | closed
  deriving DecidableEq

/-- `take_latest` goes on with the first frame, or there is none yet. -/
def Got.first : Got → Pc
  | .frame k => .newer k
  | _ => .poll

/-- `take_latest` holds frame `k`, and looks for a newer one. -/
def Got.next (k : ℕ) : Got → Pc
  | .running => .newer k
  | .eagain => .head k
  | .frame l => .swap k l

/-- `begun` only records: the frames whose parts were begun. -/
structure Session (c : StreamConfig) where
  camera : System c
  response : Response
  pc : Pc
  sent : UInt32
  begun : List ℕ

/-- The DMA stores, the interrupt ends a frame, or the task takes a step; in the middle of a send
the stack copies `n` more bytes of the frame. -/
inductive Label
  | dma (content : List UInt8)
  | endFrame (bytes size : UInt32)
  | task (n : ℕ)

namespace Session

/-- The stream of the camera has started, and the response is set up. -/
def start (memory : Slot c → List UInt8) (response : Response) : Session c :=
  ⟨.start memory, response, .poll, 0, []⟩

variable (s : Session c)

/-- The head of a part is sent. -/
def sendHead (k : ℕ) (frame : Frame) : Session c :=
  let (ok, response) := (s.response.setMore true).respondBinary (partBody frame.size)
  { s with
    response := response
    begun := s.begun ++ [k]
    pc := if ok then .data k [] else .tail k false }

/-- The frame is sent; `n` bytes of it are copied, or all have been. -/
def sendData (k : ℕ) (frame : Frame) (read : List UInt8) (n : ℕ) : Session c :=
  if h : read.length = frame.size.toNat then
    let (ok, response) := s.response.respondBinary ⟨frame.size, some ⟨read, h⟩⟩
    { s with response := response, pc := .tail k ok }
  else
    let copied := (List.range' read.length (min n (frame.size.toNat - read.length))).map
      (frameByte s.camera.stream frame)
    { s with pc := .data k (read ++ copied) }

/-- The end of a part is sent, if all went well. -/
def sendTail (k : ℕ) (ok : Bool) : Session c :=
  let response := s.response.setMore false
  if ok then
    let (ok, response) := response.respondString (some crlf)
    { s with response := response, pc := .release k ok }
  else { s with response := response, pc := .release k false }

def taskStep (n : ℕ) : Option (Session c) :=
  match s.pc with
  | .poll => (getStep s.camera).map fun (got, camera) => { s with camera := camera, pc := got.first }
  | .newer k => (getStep s.camera).map fun (got, camera) =>
    { s with camera := camera, pc := got.next k }
  | .swap k l => (s.camera.step (.release k)).map fun camera =>
    { s with camera := camera, pc := .newer l }
  | .head k => s.camera.taken[k]?.map (s.sendHead k)
  | .data k read => s.camera.taken[k]?.map fun frame => s.sendData k frame read n
  | .tail k ok => some (s.sendTail k ok)
  | .release k ok => (s.camera.step (.release k)).map fun camera =>
    if ok then { s with camera := camera, sent := s.sent + 1, pc := .poll }
    else { s with camera := camera, pc := .closed }
  | .closed => none

/-- What the hardware does is a step of the camera alone. -/
def step (s : Session c) : Label → Option (Session c)
  | .dma content => (s.camera.step (.dma content)).map fun camera => { s with camera := camera }
  | .endFrame bytes size =>
    (s.camera.step (.endFrame bytes size)).map fun camera => { s with camera := camera }
  | .task n => s.taskStep n

end Session

/-- `SLOT_COUNT`. -/
def webSlotCount : ℕ := 2

/-- `SLOT_BYTES` and `SLOT_COUNT`. -/
def webSlots : StreamConfig := ⟨48 * 1024, webSlotCount, by decide, by decide, by decide⟩

/-- What `serve_stream` sets up. -/
def streamSetup : List Response.Call :=
  [.setContentType (some (ascii "multipart/x-mixed-replace; boundary=" ++ boundary)),
    .omitContentLength]

def streamResponse (stop : Option ℕ) (taken : ℕ → ℤ) : Response :=
  (Response.start stop taken).calls streamSetup

end BekenCam.Mjpeg
