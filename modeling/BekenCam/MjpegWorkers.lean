import BekenCam.Claimed
import BekenCam.MjpegClient

/-!
# Workers that serve the stream

Several workers of the HTTP server can have a request for the stream, and the camera has one frame
source. A worker claims the stream before it starts the camera, and gives it up when its client is
gone; a worker that finds the stream claimed answers 503. Nothing else uses the camera.
-/
namespace BekenCam.Mjpeg

open Camera Http

/-- `FRAME_MAX_BYTES`. -/
def frameMaxBytes : UInt32 := 47104

/-- The configuration of the stream, with the address of the slots. -/
def streamRequest (slots : UInt32) : StreamRequest := ⟨slots, 48 * 1024, 2⟩

/-- What is left of a session without the camera. -/
structure Sender where
  response : Response
  pc : Pc
  sent : UInt32
  begun : List ℕ

def Sender.session (x : Sender) (camera : System webSlots) : Session webSlots :=
  ⟨camera, x.response, x.pc, x.sent, x.begun⟩

def Session.sender (s : Session webSlots) : Sender := ⟨s.response, s.pc, s.sent, s.begun⟩

/-- The next step of a worker in `serve_stream`. -/
inductive Worker
  | away
  | claim (response : Response)
  | busy (response : Response)
  | refused (response : Response)
  | ensure (response : Response)
  | start (response : Response)
  | frames (sender : Sender)
  | stop (response : Response)
  | release (response : Response)
  | answered (response : Response)

/-- Between `claim_stream` and `release_stream`. -/
def Worker.streams : Worker → Prop
  | .ensure _ | .start _ | .frames _ | .stop _ | .release _ => True
  | .away | .claim _ | .busy _ | .refused _ | .answered _ => False

/-- `g_camera`, the camera's device, and the workers. The device has a stream while `g_stream` is
active; the slots keep their content between two streams. -/
structure Web where
  streaming : Bool
  started : Bool
  sensor : Bool
  stream : Option (System webSlots)
  memory : Slot webSlots → List UInt8
  worker : ℕ → Worker

/-- `rc` is what `camera_start` or `gdma_configure` returns. -/
inductive WebLabel
  | request (i : ℕ) (stop : Option ℕ) (taken : ℕ → ℤ)
  | dma (content : List UInt8)
  | endFrame (bytes size : UInt32)
  | task (i n : ℕ) (rc : ℤ)

namespace Web

def boot (memory : Slot webSlots → List UInt8) : Web :=
  ⟨false, false, false, none, memory, fun _ => .away⟩

variable (s : Web) (i : ℕ)

def goto (w : Worker) : Web := { s with worker := Function.update s.worker i w }

/-- `claim_stream`. -/
def claimStream (r : Response) : Web :=
  { s with streaming := true }.goto i (if s.streaming then .busy r else .ensure r)

/-- The answer to a client that finds the stream taken. -/
def refusal (r : Response) : Response :=
  ((r.setStatus 503).2.respondString (some ⟨[], by decide⟩)).2.reject 500

/-- `ensure_camera`. A start stops a stream that runs, and forgets the sensor until it has one. -/
def ensureCamera (r : Response) (rc : ℤ) : Web :=
  if s.started then s.goto i (.start r)
  else
    { s with stream := none, sensor := decide (rc = 0), started := decide (rc = 0) }.goto i
      (if rc = 0 then .start r else .release r)

/-- `camera_stream_start`, and what is set up for the stream. -/
def startStream (slots : UInt32) (r : Response) (rc : ℤ) : Web :=
  match cameraStreamStart ⟨s.sensor, s.stream.isSome, frameMaxBytes⟩ (some (streamRequest slots)) rc with
  | .error _ => s.goto i (.release r)
  | .ok _ => { s with stream := some (.start s.memory) }.goto i
    (.frames ⟨r.calls streamSetup, .poll, 0, []⟩)

/-- `camera_stream_stop`. -/
def stopStream (r : Response) : Web :=
  { s with
    stream := none
    memory := (s.stream.map fun (camera : System webSlots) => camera.stream.memory).getD
      s.memory }.goto i (.release r)

/-- A step of `stream_frames`. -/
def framesStep (x : Sender) (n : ℕ) : Option Web :=
  s.stream.bind fun camera =>
    match x.pc with
    | .closed => some (s.goto i (.stop x.response))
    | _ => ((x.session camera).taskStep n).map fun t =>
      { s with stream := some t.camera }.goto i (.frames t.sender)

/-- The hardware works on the stream that runs. -/
def hardware (l : Camera.Label) : Option Web :=
  s.stream.bind fun camera => (camera.step l).map fun camera => { s with stream := some camera }

def step (slots : UInt32) (s : Web) : WebLabel → Option Web
  | .request i stop taken =>
    match s.worker i with
    | .away | .refused _ | .answered _ => some (s.goto i (.claim (.start stop taken)))
    | _ => none
  | .dma content => s.hardware (.dma content)
  | .endFrame bytes size => s.hardware (.endFrame bytes size)
  | .task i n rc =>
    match s.worker i with
    | .away | .refused _ | .answered _ => none
    | .claim r => some (s.claimStream i r)
    | .busy r => some (s.goto i (.refused (refusal r)))
    | .ensure r => some (s.ensureCamera i r rc)
    | .start r => some (s.startStream i slots r rc)
    | .frames x => s.framesStep i x n
    | .stop r => some (s.stopStream i r)
    | .release r => some ({ s with streaming := false }.goto i (.answered (r.reject 500)))

end Web

/-! ## The invariant -/

namespace Web

variable {s t : Web} {slots : UInt32} {i : ℕ}

@[simp] theorem goto_worker (s : Web) (i : ℕ) (w : Worker) :
    (s.goto i w).worker = Function.update s.worker i w := rfl

/-- A response that has just begun. -/
def New (r : Response) : Prop := ∃ stop taken, r = .start stop taken

/-- What holds of a worker, with the camera's stream and whether it has a sensor. -/
def Holds (stream : Option (System webSlots)) (sensor : Bool) : Worker → Prop
  | .away | .answered _ => True
  | .claim r | .busy r => New r
  | .refused r => bodyText r = []
  | .ensure r => New r ∧ stream = none
  | .start r => New r ∧ stream = none ∧ sensor = true
  | .frames x => ∃ camera, stream = some camera ∧ (x.session camera).Inv
  | .stop _ => True
  | .release _ => stream = none

structure Inv (s : Web) : Prop where
  claimed : Claimed Worker.streams s.streaming s.worker
  sensor : s.started = true → s.sensor = true
  idle : (∀ i, ¬(s.worker i).streams) → s.stream = none
  workers : ∀ i, Holds s.stream s.sensor (s.worker i)

theorem inv_boot (memory : Slot webSlots → List UInt8) : (boot memory).Inv where
  claimed := ⟨nofun, nofun, fun ⟨_, hi⟩ => hi.elim⟩
  sensor := nofun
  idle _ := rfl
  workers _ := trivial

/-- A worker that does not stream has nothing to do with the camera. -/
theorem Holds.congr {stream stream' : Option (System webSlots)} {sensor sensor' : Bool} {w : Worker}
    (h : Holds stream sensor w) (hw : ¬w.streams) : Holds stream' sensor' w := by
  cases w with
  | away | claim r | busy r | refused r | answered r => exact h
  | ensure r | start r | frames x | stop r | release r => exact absurd trivial hw

/-- The worker that streams takes a step. -/
theorem Inv.holder (h : s.Inv) (hi : (s.worker i).streams) {w : Worker} (t : Web)
    (ht : t.worker = Function.update s.worker i w)
    (hclaimed : Claimed Worker.streams t.streaming t.worker)
    (hsensor : t.started = true → t.sensor = true)
    (hidle : ¬w.streams → t.stream = none) (hw : Holds t.stream t.sensor w) : t.Inv where
  claimed := hclaimed
  sensor := hsensor
  idle hnone := hidle (by simpa [ht] using hnone i)
  workers j := by
    rw [ht]
    by_cases hj : j = i
    · subst hj
      rwa [Function.update_self]
    · rw [Function.update_of_ne hj]
      exact (h.workers j).congr fun hs => hj (h.claimed.one j i hs hi)

/-- A worker that does not stream takes a step, and still does not. -/
theorem Inv.other (h : s.Inv) (hi : ¬(s.worker i).streams) {w : Worker} (hstreams : ¬w.streams)
    (hw : Holds s.stream s.sensor w) : (s.goto i w).Inv where
  claimed := h.claimed.move (by simp [hi, hstreams])
  sensor := h.sensor
  idle hnone := by
    refine h.idle fun j hj => ?_
    have hne : j ≠ i := by
      rintro rfl
      exact hi hj
    refine hnone j ?_
    simpa [goto, Function.update_of_ne hne] using hj
  workers j := by
    by_cases hj : j = i
    · subst hj
      simpa [goto] using hw
    · simpa [goto, Function.update_of_ne hj] using h.workers j

/-! ## The steps -/

theorem inv_claim (h : s.Inv) {r : Response} (hw : s.worker i = .claim r) :
    (s.claimStream i r).Inv := by
  have hnew : New r := by
    have hholds := h.workers i
    rwa [hw] at hholds
  have hi : ¬(s.worker i).streams := by
    rw [hw]
    exact id
  unfold claimStream
  cases hflag : s.streaming with
  | true =>
    have hbusy := h.other hi (w := .busy r) id hnew
    have hsame : s.goto i (.busy r) = { s with streaming := true }.goto i (.busy r) := by
      simp [goto, hflag]
    rwa [hsame] at hbusy
  | false =>
    have hclaimed := h.claimed
    rw [hflag] at hclaimed
    have hnone := h.idle hclaimed.nobody
    refine ⟨hclaimed.claim trivial, h.sensor, fun hno => ?_, fun j => ?_⟩
    · have hstreams := hno i
      rw [goto_worker, Function.update_self] at hstreams
      exact absurd trivial hstreams
    · by_cases hj : j = i
      · subst hj
        rw [goto_worker, Function.update_self]
        exact ⟨hnew, hnone⟩
      · simpa [goto, Function.update_of_ne hj] using h.workers j

/-- What a worker that streams does next, if it goes on streaming. -/
theorem Inv.stay (h : s.Inv) (hi : (s.worker i).streams) {w : Worker} (hw : w.streams) (t : Web)
    (ht : t.worker = Function.update s.worker i w) (hflag : t.streaming = s.streaming)
    (hsensor : t.started = true → t.sensor = true) (hholds : Holds t.stream t.sensor w) : t.Inv := by
  refine h.holder hi t ht ?_ hsensor (fun hno => absurd hw hno) hholds
  rw [hflag, ht]
  exact h.claimed.move ⟨fun _ => hi, fun _ => hw⟩

theorem inv_ensure (h : s.Inv) {r : Response} (hw : s.worker i = .ensure r) (rc : ℤ) :
    (s.ensureCamera i r rc).Inv := by
  obtain ⟨hnew, hnone⟩ : New r ∧ s.stream = none := by
    have hholds := h.workers i
    rwa [hw] at hholds
  have hi : (s.worker i).streams := by
    rw [hw]
    trivial
  unfold ensureCamera
  split_ifs with hstarted hrc
  · exact h.stay hi (w := .start r) trivial _ rfl rfl h.sensor ⟨hnew, hnone, h.sensor hstarted⟩
  · refine h.stay hi (w := .start r) trivial _ rfl rfl id ⟨hnew, rfl, ?_⟩
    exact decide_eq_true hrc
  · exact h.stay hi (w := .release r) trivial _ rfl rfl id rfl

theorem inv_start_stream (h : s.Inv) {r : Response} (hw : s.worker i = .start r) (rc : ℤ) :
    (s.startStream i slots r rc).Inv := by
  obtain ⟨⟨stop, taken, rfl⟩, hnone, -⟩ : New r ∧ s.stream = none ∧ s.sensor = true := by
    have hholds := h.workers i
    rwa [hw] at hholds
  have hi : (s.worker i).streams := by
    rw [hw]
    trivial
  unfold startStream
  split
  · exact h.stay hi (w := .release _) trivial _ rfl rfl h.sensor hnone
  · refine h.stay hi (w := .frames _) trivial _ rfl rfl h.sensor ⟨_, rfl, ?_⟩
    exact Session.inv_start s.memory rfl rfl

theorem inv_frames (h : s.Inv) {x : Sender} (hw : s.worker i = .frames x) {n : ℕ}
    (hstep : s.framesStep i x n = some t) : t.Inv := by
  obtain ⟨camera, hcamera, hinv⟩ : ∃ camera, s.stream = some camera ∧ (x.session camera).Inv := by
    have hholds := h.workers i
    rwa [hw] at hholds
  have hi : (s.worker i).streams := by
    rw [hw]
    trivial
  rw [framesStep, hcamera, Option.bind_some] at hstep
  split at hstep
  · obtain rfl := Option.some.inj hstep
    exact h.stay hi (w := .stop _) trivial _ rfl rfl h.sensor trivial
  · obtain ⟨t', ht', rfl⟩ := Option.map_eq_some_iff.mp hstep
    refine h.stay hi (w := .frames _) trivial _ rfl rfl h.sensor ⟨_, rfl, ?_⟩
    exact hinv.step (l := .task n) (by decide) ht'

theorem inv_hardware (h : s.Inv) {l : Camera.Label}
    (hl : ∀ (x : Sender) (camera camera' : System webSlots), (x.session camera).Inv →
      camera.step l = some camera' → (x.session camera').Inv)
    (hstep : s.hardware l = some t) : t.Inv := by
  obtain ⟨camera, hcamera, hmap⟩ := Option.bind_eq_some_iff.mp hstep
  obtain ⟨camera', hcamera', rfl⟩ := Option.map_eq_some_iff.mp hmap
  refine ⟨h.claimed, h.sensor, fun hno => ?_, fun j => ?_⟩
  · have hnone := h.idle hno
    rw [hcamera] at hnone
    cases hnone
  · have hholds := h.workers j
    rw [hcamera] at hholds
    show Holds (some camera') s.sensor (s.worker j)
    cases hw : s.worker j <;> rw [hw] at hholds
    case away | claim | busy | refused | stop | answered => exact hholds
    case ensure | start | release => simp [Holds] at hholds
    case frames x =>
      obtain ⟨_, hsome, hinv⟩ := hholds
      obtain rfl := Option.some.inj hsome
      exact ⟨camera', rfl, hl x camera camera' hinv hcamera'⟩

theorem bodyText_sendHeaders (r : Response) (more : Bool) :
    bodyText (r.sendHeaders more).2 = bodyText r := by
  rcases r.sendHeaders_cases more with ⟨r', hsend, -, -, hwire⟩ | ⟨-, ok, buf, -, hsend⟩
  · rw [hsend]
    unfold bodyText
    rcases hwire with hwire | hwire
    · rw [hwire]
    · rw [hwire]
      rfl
  · rw [hsend]
    exact hand_head r.tick r.declared buf more

/-- Without bytes in the body no bytes of a body go out. -/
theorem bodyText_empty (r : Response) {body : Body} (h : body.bytes = []) :
    bodyText (r.respondBinary body).2 = bodyText r := by
  by_cases hrefuses : r.Refuses body
  · rcases Response.respondBinary_refused hrefuses with hr | hr
    · rw [hr]
    · rw [hr]
      rfl
  have hdecided : bodyText (r.tick.decideLength body.length) = bodyText r := by
    unfold bodyText
    rw [(r.tick.decideLength_wire body.length).1]
    rfl
  have hsent : ∀ r : Response, bodyText (r.sendBody body).2 = bodyText r := fun r => by
    unfold bodyText
    rw [Response.sendBody_empty h]
  rw [Response.respondBinary_taken hrefuses, ← hdecided]
  dsimp only
  split_ifs
  · exact hsent _
  · exact (hsent _).trans (bodyText_sendHeaders ..)
  · exact bodyText_sendHeaders ..

theorem refusal_text {r : Response} (h : New r) : bodyText (refusal r) = [] := by
  obtain ⟨stop, taken, rfl⟩ := h
  have hempty : ∀ r : Response, bodyText (r.reject 500) = bodyText r := by
    intro r
    unfold Response.reject
    split_ifs
    · rfl
    · exact bodyText_empty _ rfl
  exact (hempty _).trans (bodyText_empty _ rfl)

theorem Inv.step (h : s.Inv) {l : WebLabel} (hstep : Web.step slots s l = some t) : t.Inv := by
  cases l with
  | request i stop taken =>
    simp only [Web.step] at hstep
    split at hstep <;> rename_i hw
    case h_4 => cases hstep
    all_goals
      obtain rfl := Option.some.inj hstep
      refine h.other ?_ id ⟨stop, taken, rfl⟩
      rw [hw]
      exact id
  | dma content =>
    refine inv_hardware h (fun x camera camera' hinv hcamera => ?_) hstep
    refine hinv.step (l := .dma content) (by decide) ?_
    exact congrArg (Option.map x.session) hcamera
  | endFrame bytes size =>
    refine inv_hardware h (fun x camera camera' hinv hcamera => ?_) hstep
    refine hinv.step (l := .endFrame bytes size) (by decide) ?_
    simp only [Session.step]
    exact congrArg (Option.map x.session) hcamera
  | task i n rc =>
    simp only [Web.step] at hstep
    cases hw : s.worker i <;> rw [hw] at hstep
    case away | refused | answered => cases hstep
    case claim r =>
      obtain rfl := Option.some.inj hstep
      exact inv_claim h hw
    case busy r =>
      obtain rfl := Option.some.inj hstep
      have hnew : New r := by
        have hholds := h.workers i
        rwa [hw] at hholds
      refine h.other ?_ id (refusal_text hnew)
      rw [hw]
      exact id
    case ensure r =>
      obtain rfl := Option.some.inj hstep
      exact inv_ensure h hw rc
    case start r =>
      obtain rfl := Option.some.inj hstep
      exact inv_start_stream h hw rc
    case frames x => exact inv_frames h hw hstep
    case stop r =>
      obtain rfl := Option.some.inj hstep
      have hi : (s.worker i).streams := by
        rw [hw]
        trivial
      exact h.stay hi (w := .release r) trivial _ rfl rfl h.sensor rfl
    case release r =>
      obtain rfl := Option.some.inj hstep
      have hi : (s.worker i).streams := by
        rw [hw]
        trivial
      have hnone : s.stream = none := by
        have hholds := h.workers i
        rwa [hw] at hholds
      exact h.holder hi (w := .answered _) _ rfl (h.claimed.clear hi id) h.sensor (fun _ => hnone)
        trivial

/-! ## Every run -/

structure Sound (slots : UInt32) (s : Web) : Prop where
  one : ∀ i j, (s.worker i).streams → (s.worker j).streams → i = j
  flag : s.streaming = true ↔ ∃ i, (s.worker i).streams
  quiet : ∀ i r, s.worker i = .ensure r → s.stream = none
  starts : ∀ i r rc e, s.worker i = .start r →
    cameraStreamStart ⟨s.sensor, s.stream.isSome, frameMaxBytes⟩ (some (streamRequest slots)) rc =
      .error e → e ≠ .enxio ∧ e ≠ .ebusy
  frames : ∀ i x, s.worker i = .frames x →
    ∃ camera, s.stream = some camera ∧ (x.session camera).Sound
  refused : ∀ i r, s.worker i = .refused r → bodyText r = []
  stopped : s.streaming = false → s.stream = none

theorem Inv.sound (h : s.Inv) : s.Sound slots where
  one := h.claimed.one
  flag := h.claimed.flag
  quiet i r hw := by
    have hholds := h.workers i
    rw [hw] at hholds
    exact hholds.2
  starts i r rc e hw he := by
    have hholds := h.workers i
    rw [hw] at hholds
    obtain ⟨-, hnone, hsensor⟩ := hholds
    rw [hnone, hsensor] at he
    simp only [cameraStreamStart, Bool.not_true, Bool.false_eq_true, if_false,
      Option.isSome_none] at he
    split_ifs at he <;> cases he <;> exact ⟨nofun, nofun⟩
  frames i x hw := by
    have hholds := h.workers i
    rw [hw] at hholds
    obtain ⟨camera, hcamera, hinv⟩ := hholds
    exact ⟨camera, hcamera, hinv.sound⟩
  refused i r hw := by
    have hholds := h.workers i
    rwa [hw] at hholds
  stopped hflag := h.idle fun i hi => by
    have hset := h.claimed.flag.mpr ⟨i, hi⟩
    rw [hflag] at hset
    cases hset

end Web

/-- The camera serves one client at a time, however the workers and the hardware interleave. -/
theorem serveStream_sound (slots : UInt32) (memory : Slot webSlots → List UInt8)
    (ls : List WebLabel) (s : Web) (hrun : runSteps (Web.step slots) (.boot memory) ls = some s) :
    s.Sound slots :=
  (invariant_of_steps (fun _ _ _ hinv hstep => Web.Inv.step hinv hstep) (Web.inv_boot memory)
    hrun).sound

/-- A second client is refused while the first one has the stream, and served when that is gone. -/
def takeTurns : List WebLabel :=
  [.request 0 none fun _ => 0, .request 1 none fun _ => 0, .task 0 0 0, .task 1 0 0, .task 1 0 0,
    .task 0 0 0, .task 0 0 0, .endFrame 0 0, .dma System.smallFrame, .endFrame 9 4] ++
  List.replicate 11 (.task 0 0 0) ++
  [.request 1 none fun _ => 0, .task 1 0 0, .task 1 0 0, .task 1 0 0]

theorem serveStream_sound_takeTurns : ∃ s : Web,
    runSteps (Web.step 4096) (.boot fun _ => []) takeTurns = some s ∧ s.Sound 4096 ∧
      s.streaming = true ∧ s.stream.isSome = true := by
  have hend : (runSteps (Web.step 4096) (.boot fun _ => []) takeTurns).map
      (fun s => (s.streaming, s.stream.isSome)) = some (true, true) := by decide +kernel
  obtain ⟨s, hs, heq⟩ := Option.map_eq_some_iff.mp hend
  obtain ⟨hflag, hstream⟩ := Prod.mk.inj heq
  exact ⟨s, hs, serveStream_sound 4096 _ takeTurns s hs, hflag, hstream⟩

end BekenCam.Mjpeg
