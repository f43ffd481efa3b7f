import BekenCam.MjpegStream

/-!
# What a client of the stream sees

The parts hold the frames of the camera, whole and as they were when they ended, in their order. The
bytes of a frame do not change while it is sent, whatever the interrupt does, and every frame taken
goes back.
-/
namespace BekenCam.Mjpeg

open Camera Http

variable {c : StreamConfig}

/-! ## JPEGs -/

def Jpeg (text : List UInt8) : Prop := ∃ inner, text = [0xFF, 0xD8] ++ inner ++ [0xFF, 0xD9]

/-- The JPEG in a frame, without the trailer behind it. -/
def jpegOf (f : Captured c) : List UInt8 := f.data.take f.size.toNat

structure Whole (f : Captured c) : Prop where
  size : f.size.toNat ≤ f.data.length
  jpeg : Jpeg (jpegOf f)

theorem length_jpegOf {f : Captured c} (h : Whole f) : (jpegOf f).length = f.size.toNat := by
  rw [jpegOf, List.length_take, Nat.min_eq_left h.size]

theorem jpeg_of_getD {l : List UInt8} {n : ℕ} (hn : 4 ≤ n) (hlen : l.length = n)
    (h0 : l.getD 0 0 = 0xFF) (h1 : l.getD 1 0 = 0xD8) (h2 : l.getD (n - 2) 0 = 0xFF)
    (h3 : l.getD (n - 1) 0 = 0xD9) : Jpeg l := by
  obtain ⟨a, b, rest, rfl⟩ : ∃ a b rest, l = a :: b :: rest := by
    match l, hlen with
    | a :: b :: rest, _ => exact ⟨a, b, rest, rfl⟩
    | [], hlen | [_], hlen =>
      simp at hlen
      omega
  obtain ⟨inner, x, y, rfl⟩ : ∃ inner x y, rest = inner ++ [x, y] := by
    rcases List.eq_nil_or_concat' rest with rfl | ⟨rest, y, rfl⟩
    · simp at hlen
      omega
    rcases List.eq_nil_or_concat' rest with rfl | ⟨inner, x, rfl⟩
    · simp at hlen
      omega
    · exact ⟨inner, x, y, by simp⟩
  obtain rfl : n = inner.length + 4 := by simpa using hlen.symm
  have hx : (a :: b :: (inner ++ [x, y])).getD (inner.length + 2) 0 = x := by simp
  have hy : (a :: b :: (inner ++ [x, y])).getD (inner.length + 3) 0 = y := by simp
  obtain rfl : a = 0xFF := h0
  obtain rfl : b = 0xD8 := h1
  obtain rfl : x = 0xFF := hx.symm.trans h2
  obtain rfl : y = 0xD9 := hy.symm.trans h3
  exact ⟨inner, by simp⟩

/-- What the interrupt queues is whole. -/
theorem whole_ending {s : Stream c} {bytes size : UInt32} (h : s.whole bytes size = true) :
    Whole (s.ending size) := by
  simp only [Stream.whole, Bool.and_eq_true, decide_eq_true_eq, beq_iff_eq] at h
  obtain ⟨⟨⟨⟨⟨⟨hfour, -⟩, -⟩, h0⟩, h1⟩, h2⟩, h3⟩ := h
  have hfour : 4 ≤ size.toNat := UInt32.le_iff_toNat_le.mp hfour
  have hsub : ∀ j : UInt32, j.toNat ≤ 2 → (size - j).toNat = size.toNat - j.toNat := fun j hj =>
    UInt32.toNat_sub_of_le _ _ (UInt32.le_iff_toNat_le.mpr (by omega))
  rw [hsub 2 (by decide)] at h2
  rw [hsub 1 (by decide)] at h3
  have hlen : size.toNat ≤ (s.memory s.current).length := by
    by_contra hshort
    rw [List.getD_eq_default _ _ (show _ ≤ size.toNat - (1 : UInt32).toNat from ?_)] at h3
    · cases h3
    · have hone : (1 : UInt32).toNat = 1 := rfl
      omega
  have htake : ∀ i < size.toNat, ((s.memory s.current).take size.toNat).getD i 0 =
      (s.memory s.current).getD i 0 := by
    intro i hi
    rw [List.getD_eq_getElem?_getD, List.getD_eq_getElem?_getD, List.getElem?_take_of_lt hi]
  refine ⟨hlen, jpeg_of_getD hfour (by simp [jpegOf, Stream.ending, hlen]) ?_ ?_ ?_ ?_⟩
  · exact (htake 0 (by omega)).trans h0
  · exact (htake 1 (by omega)).trans h1
  · exact (htake _ (by omega)).trans h2
  · exact (htake _ (by omega)).trans h3

/-! ## The camera's steps -/

/-- Nothing that the consumer sees is changed, and the new frames are whole. -/
structure Behind (s t : System c) : Prop where
  taken : t.taken = s.taken
  held : t.held = s.held
  get : t.get = s.get
  captured : s.captured <+: t.captured
  whole : ∀ f ∈ t.captured, f ∈ s.captured ∨ Whole f

theorem behind_dma {s t : System c} {content : List UInt8} (h : s.step (.dma content) = some t) :
    Behind s t := by
  obtain ⟨slot, -, rfl⟩ := Option.map_eq_some_iff.mp h
  exact ⟨rfl, rfl, rfl, List.prefix_refl _, fun f hf => .inl hf⟩

theorem behind_endFrame {s t : System c} {bytes size : UInt32}
    (h : s.step (.endFrame bytes size) = some t) : Behind s t := by
  obtain rfl := Option.some.inj h
  unfold System.record
  split_ifs with harmed hwhole
  · exact ⟨rfl, rfl, rfl, List.prefix_refl _, fun f hf => .inl hf⟩
  · refine ⟨rfl, rfl, rfl, List.prefix_append .., fun f hf => ?_⟩
    refine (List.mem_append.mp hf).imp_right fun hf => ?_
    rw [List.mem_singleton.mp hf]
    exact whole_ending hwhole.1
  · exact ⟨rfl, rfl, rfl, List.prefix_refl _, fun f hf => .inl hf⟩

/-- What a step in `camera_stream_get` does. -/
structure GotSpec (s : System c) (got : Got) (t : System c) : Prop where
  step : ∃ l, s.step l = some t
  captured : t.captured = s.captured
  running : got = .running → t.taken = s.taken ∧ t.held = s.held
  eagain : got = .eagain → t = s ∧ s.get = .idle
  frame : ∀ k, got = .frame k → k = s.taken.length ∧ t.get = .idle ∧ t.held = s.held ++ [k] ∧
    t.taken.length = s.taken.length + 1

theorem getStep_spec {s t : System c} {got : Got} (h : getStep s = some (got, t)) :
    GotSpec s got t := by
  unfold getStep at h
  cases hpc : s.get with
  | idle =>
    rw [hpc] at h
    obtain ⟨t', hstep, heq⟩ := Option.map_eq_some_iff.mp h
    obtain ⟨hgot, rfl⟩ := Prod.mk.inj heq
    have hget := hstep
    simp only [System.step, hpc] at hget
    obtain rfl := Option.some.inj hget
    by_cases hnone : s.stream.tail = s.stream.head
    · rw [if_pos hnone] at hstep hgot ⊢
      rw [hpc] at hgot
      subst hgot
      exact ⟨⟨_, hstep⟩, rfl, by simp, fun _ => ⟨rfl, hpc⟩, by simp⟩
    · rw [if_neg hnone] at hstep hgot ⊢
      subst hgot
      exact ⟨⟨_, hstep⟩, rfl, fun _ => ⟨rfl, rfl⟩, by simp, by simp⟩
  | slot | frame slot =>
    rw [hpc] at h
    obtain ⟨t', hstep, heq⟩ := Option.map_eq_some_iff.mp h
    obtain ⟨rfl, rfl⟩ := Prod.mk.inj heq
    have hget := hstep
    simp only [System.step, hpc] at hget
    obtain rfl := Option.some.inj hget
    exact ⟨⟨_, hstep⟩, rfl, fun _ => ⟨rfl, rfl⟩, by simp, by simp⟩
  | advance frame =>
    rw [hpc] at h
    obtain ⟨t', hstep, heq⟩ := Option.map_eq_some_iff.mp h
    obtain ⟨rfl, rfl⟩ := Prod.mk.inj heq
    have hget := hstep
    simp only [System.step, hpc] at hget
    obtain rfl := Option.some.inj hget
    refine ⟨⟨_, hstep⟩, rfl, by simp, by simp, fun k hk => ?_⟩
    obtain rfl := Got.frame.inj hk
    exact ⟨rfl, rfl, rfl, by simp⟩

theorem release_spec {s t : System c} {k : ℕ} (h : s.step (.release k) = some t) :
    t.taken = s.taken ∧ t.held = s.held.erase k ∧ t.get = .idle ∧ t.captured = s.captured := by
  simp only [System.step] at h
  split at h
  · rename_i frame hidle htaken
    split_ifs at h with hheld
    obtain rfl := Option.some.inj h
    exact ⟨rfl, rfl, hidle, rfl⟩
  · cases h

/-! ## The invariant -/

/-- The JPEG of a frame, as it was when the frame ended. -/
def jpeg (s : System c) (k : ℕ) : List UInt8 := (s.captured[k]?.map jpegOf).getD []

namespace Session

variable {s t : Session c}

/-- The frames whose parts were begun. -/
def shown (s : Session c) : List (List UInt8) := s.begun.map (jpeg s.camera)

/-- All parts begun are out, and these frames are held. -/
structure Between (s : Session c) (hands : List ℕ) : Prop where
  held : s.camera.held = hands
  before : ∀ b ∈ s.begun, ∀ k ∈ hands, b < k
  sent : s.sent = UInt32.ofNat s.begun.length
  text : bodyText s.response = multipart.stream s.shown

/-- The part of frame `k` was begun, behind those of `done`. -/
structure Begun (s : Session c) (done : List ℕ) (k : ℕ) : Prop where
  begun : s.begun = done ++ [k]
  sent : s.sent = UInt32.ofNat done.length

/-- So much of the part of frame `k` is out. -/
structure During (s : Session c) (k : ℕ) (text : List UInt8) : Prop where
  held : s.camera.held = [k]
  idle : s.camera.get = .idle
  out : ∃ done, s.Begun done k ∧
    bodyText s.response = multipart.stream (done.map (jpeg s.camera)) ++ text

/-- The part of a frame is lost from somewhere on. -/
structure Broken (s : Session c) (hands : List ℕ) : Prop where
  held : s.camera.held = hands
  idle : s.camera.get = .idle
  dead : s.response.Dead
  out : ∃ done k cut, s.Begun done k ∧ cut <+: part (jpeg s.camera k) ∧
    bodyText s.response = multipart.stream (done.map (jpeg s.camera)) ++ cut

def Stage (s : Session c) : Pc → Prop
  | .poll => s.Between []
  | .newer k => s.Between [k]
  | .swap k l => s.camera.get = .idle ∧ k < l ∧ s.Between [k, l]
  | .head k => s.camera.get = .idle ∧ s.Between [k]
  | .data k read => read <+: jpeg s.camera k ∧ s.During k (partHead (jpeg s.camera k).length)
  | .tail k true => s.During k (partHead (jpeg s.camera k).length ++ jpeg s.camera k)
  | .release k true => s.During k (part (jpeg s.camera k))
  | .tail k false => s.Broken [k]
  | .release k false => s.Broken [k]
  | .closed => s.Broken []

structure Inv (s : Session c) : Prop where
  camera : s.camera.Inv
  whole : ∀ f ∈ s.camera.captured, Whole f
  mode : s.response.lengthMode = .none
  order : s.begun.Pairwise (· < ·)
  begun_lt : ∀ b ∈ s.begun, b < s.camera.taken.length
  stage : s.Stage s.pc

/-! ## Hardware -/

theorem jpeg_of_captured {s t : System c} {k : ℕ} (h : s.captured <+: t.captured)
    (hk : k < s.captured.length) : jpeg t k = jpeg s k := by
  obtain ⟨more, hmore⟩ := h
  rw [jpeg, jpeg, ← hmore, List.getElem?_append_left hk]

theorem Inv.lt_captured (h : s.Inv) {k : ℕ} (hk : k ∈ s.begun ∨ k ∈ s.camera.held) :
    k < s.camera.captured.length :=
  lt_of_lt_of_le (hk.elim (h.begun_lt k) (h.camera.held_lt k)) h.camera.taken_le

section Hardware

variable {camera : System c} (h : s.Inv) (hbehind : Behind s.camera camera)
include h hbehind

theorem Inv.jpeg_behind {k : ℕ} (hk : k ∈ s.begun ∨ k ∈ s.camera.held) :
    jpeg camera k = jpeg s.camera k :=
  jpeg_of_captured hbehind.captured (h.lt_captured hk)

theorem Inv.map_behind {done : List ℕ} (hdone : ∀ k ∈ done, k ∈ s.begun) :
    done.map (jpeg camera) = done.map (jpeg s.camera) :=
  List.map_congr_left fun k hk => h.jpeg_behind hbehind (.inl (hdone k hk))

theorem Inv.between_behind {hands : List ℕ} (hb : s.Between hands) :
    Between { s with camera := camera } hands := by
  refine ⟨hbehind.held.trans hb.held, hb.before, hb.sent, hb.text.trans ?_⟩
  exact congrArg _ (h.map_behind hbehind fun k hk => hk).symm

theorem Inv.during_behind {k : ℕ} {text : List UInt8} (hd : s.During k text) :
    During { s with camera := camera } k text := by
  obtain ⟨done, hbegun, htext⟩ := hd.out
  refine ⟨hbehind.held.trans hd.held, hbehind.get.trans hd.idle, done, ⟨hbegun.begun, hbegun.sent⟩,
    htext.trans ?_⟩
  dsimp only
  rw [h.map_behind hbehind fun k hk => by simp [hbegun.begun, hk]]

theorem Inv.broken_behind {hands : List ℕ} (hb : s.Broken hands) :
    Broken { s with camera := camera } hands := by
  obtain ⟨done, k, cut, hbegun, hcut, htext⟩ := hb.out
  refine ⟨hbehind.held.trans hb.held, hbehind.get.trans hb.idle, hb.dead, done, k, cut,
    ⟨hbegun.begun, hbegun.sent⟩, ?_, htext.trans ?_⟩
  · dsimp only
    rwa [h.jpeg_behind hbehind (.inl (by simp [hbegun.begun]))]
  · dsimp only
    rw [h.map_behind hbehind fun k hk => by simp [hbegun.begun, hk]]

theorem Inv.behind (hcamera : camera.Inv) : Inv { s with camera := camera } where
  camera := hcamera
  whole f hf := (hbehind.whole f hf).elim (h.whole f) id
  mode := h.mode
  order := h.order
  begun_lt b hb := (congrArg List.length hbehind.taken) ▸ h.begun_lt b hb
  stage := by
    have hstage := h.stage
    have hjpeg : ∀ {k text}, s.During k text → jpeg camera k = jpeg s.camera k := fun hd =>
      h.jpeg_behind hbehind (.inr (by simp [hd.held]))
    unfold Stage at hstage ⊢
    dsimp only
    split at hstage
    · exact h.between_behind hbehind hstage
    · exact h.between_behind hbehind hstage
    · exact ⟨hbehind.get.trans hstage.1, hstage.2.1, h.between_behind hbehind hstage.2.2⟩
    · exact ⟨hbehind.get.trans hstage.1, h.between_behind hbehind hstage.2⟩
    · rw [hjpeg hstage.2]
      exact ⟨hstage.1, h.during_behind hbehind hstage.2⟩
    · rw [hjpeg hstage]
      exact h.during_behind hbehind hstage
    · rw [hjpeg hstage]
      exact h.during_behind hbehind hstage
    · exact h.broken_behind hbehind hstage
    · exact h.broken_behind hbehind hstage
    · exact h.broken_behind hbehind hstage

end Hardware

/-! ## The task takes and gives back -/

theorem jpeg_congr {s t : System c} (h : t.captured = s.captured) : jpeg t = jpeg s := by
  funext k
  rw [jpeg, jpeg, h]

/-- The task moves on, with the frames that the camera had. -/
theorem Inv.moved (h : s.Inv) {camera : System c} (hcamera : camera.Inv)
    (hcaptured : camera.captured = s.camera.captured)
    (htaken : s.camera.taken.length ≤ camera.taken.length) {pc : Pc} {sent : UInt32}
    (hstage : Stage { s with camera := camera, pc := pc, sent := sent } pc) :
    Inv { s with camera := camera, pc := pc, sent := sent } where
  camera := hcamera
  whole f hf := h.whole f (hcaptured ▸ hf)
  mode := h.mode
  order := h.order
  begun_lt b hb := lt_of_lt_of_le (h.begun_lt b hb) htaken
  stage := hstage

theorem Between.moved {hands : List ℕ} (hb : s.Between hands) {camera : System c}
    (hcaptured : camera.captured = s.camera.captured) {hands' : List ℕ} (hheld : camera.held = hands')
    (hbefore : ∀ b ∈ s.begun, ∀ k ∈ hands', b < k) (pc : Pc) :
    Between { s with camera := camera, pc := pc } hands' := by
  refine ⟨hheld, hbefore, hb.sent, hb.text.trans ?_⟩
  unfold shown
  dsimp only
  rw [jpeg_congr hcaptured]

theorem Inv.pollStep (hdvd : c.slotCount ∣ 2 ^ 32) (h : s.Inv) (hpc : s.pc = .poll) {got : Got}
    {camera : System c} (hgot : getStep s.camera = some (got, camera)) :
    Inv { s with camera := camera, pc := got.first } := by
  have hspec := getStep_spec hgot
  obtain ⟨l, hl⟩ := hspec.step
  have hcamera := h.camera.step (System.Inv.fits_of_dvd h.camera hdvd l) hl
  have hb : s.Between [] := by
    have hstage := h.stage
    rwa [hpc] at hstage
  cases got with
  | running =>
    obtain ⟨htaken, hheld⟩ := hspec.running rfl
    refine h.moved hcamera hspec.captured (by rw [htaken]) ?_
    exact hb.moved hspec.captured (hheld.trans hb.held) (by simp) .poll
  | eagain =>
    obtain ⟨rfl, -⟩ := hspec.eagain rfl
    exact h.moved hcamera rfl (Nat.le_refl _) (hb.moved rfl hb.held (by simp) .poll)
  | frame k =>
    obtain ⟨rfl, -, hheld, htaken⟩ := hspec.frame k rfl
    refine h.moved hcamera hspec.captured (by omega) ?_
    refine hb.moved hspec.captured (by simp [hheld, hb.held]) (fun b hbegun k hk => ?_) (.newer _)
    rw [List.mem_singleton.mp hk]
    exact h.begun_lt b hbegun

theorem Inv.newerStep (hdvd : c.slotCount ∣ 2 ^ 32) (h : s.Inv) {k : ℕ} (hpc : s.pc = .newer k)
    {got : Got} {camera : System c} (hgot : getStep s.camera = some (got, camera)) :
    Inv { s with camera := camera, pc := got.next k } := by
  have hspec := getStep_spec hgot
  obtain ⟨l, hl⟩ := hspec.step
  have hcamera := h.camera.step (System.Inv.fits_of_dvd h.camera hdvd l) hl
  have hb : s.Between [k] := by
    have hstage := h.stage
    rwa [hpc] at hstage
  cases got with
  | running =>
    obtain ⟨htaken, hheld⟩ := hspec.running rfl
    refine h.moved hcamera hspec.captured (by rw [htaken]) ?_
    exact hb.moved hspec.captured (hheld.trans hb.held) hb.before (.newer k)
  | eagain =>
    obtain ⟨rfl, hidle⟩ := hspec.eagain rfl
    exact h.moved hcamera rfl (Nat.le_refl _) ⟨hidle, hb.moved rfl hb.held hb.before (.head k)⟩
  | frame l =>
    obtain ⟨rfl, hidle, hheld, htaken⟩ := hspec.frame l rfl
    refine h.moved hcamera hspec.captured (by omega) ⟨hidle, ?_, ?_⟩
    · exact h.camera.held_lt k (by simp [hb.held])
    · refine hb.moved hspec.captured (by simp [hheld, hb.held]) (fun b hbegun j hj => ?_) (.swap k _)
      rcases List.mem_cons.mp hj with rfl | hj
      · exact hb.before b hbegun _ List.mem_cons_self
      · rw [List.mem_singleton.mp hj]
        exact h.begun_lt b hbegun

theorem Inv.swapStep (hdvd : c.slotCount ∣ 2 ^ 32) (h : s.Inv) {k l : ℕ} (hpc : s.pc = .swap k l)
    {camera : System c} (hstep : s.camera.step (.release k) = some camera) :
    Inv { s with camera := camera, pc := .newer l } := by
  have hcamera := h.camera.step (System.Inv.fits_of_dvd h.camera hdvd _) hstep
  obtain ⟨htaken, hheld, -, hcaptured⟩ := release_spec hstep
  obtain ⟨-, hlt, hb⟩ : s.camera.get = .idle ∧ k < l ∧ s.Between [k, l] := by
    have hstage := h.stage
    rwa [hpc] at hstage
  refine h.moved hcamera hcaptured (by rw [htaken]) ?_
  refine hb.moved hcaptured (by simp [hheld, hb.held]) (fun b hbegun j hj => ?_) (.newer l)
  rw [List.mem_singleton.mp hj]
  exact (hb.before b hbegun k List.mem_cons_self).trans hlt

theorem Inv.releaseStep (hdvd : c.slotCount ∣ 2 ^ 32) (h : s.Inv) {k : ℕ} {ok : Bool}
    (hpc : s.pc = .release k ok) {camera : System c}
    (hstep : s.camera.step (.release k) = some camera) :
    Inv (if ok then { s with camera := camera, sent := s.sent + 1, pc := .poll }
      else { s with camera := camera, pc := .closed }) := by
  have hcamera := h.camera.step (System.Inv.fits_of_dvd h.camera hdvd _) hstep
  obtain ⟨htaken, hheld, hidle, hcaptured⟩ := release_spec hstep
  have hstage := h.stage
  rw [hpc] at hstage
  cases ok with
  | true =>
    obtain ⟨hk, -, done, hbegun, htext⟩ := hstage
    rw [if_pos rfl]
    refine h.moved hcamera hcaptured (by rw [htaken]) ⟨?_, by simp, ?_, htext.trans ?_⟩
    · simp [hheld, hk]
    · dsimp only
      rw [hbegun.begun, hbegun.sent, List.length_append, UInt32.ofNat_add]
      rfl
    · unfold shown
      dsimp only
      rw [jpeg_congr hcaptured, hbegun.begun, List.map_append, Format.stream_append,
        List.map_singleton, Format.stream_singleton]
      rfl
  | false =>
    obtain ⟨hk, -, hdead, done, l, cut, hbegun, hcut, htext⟩ := hstage
    rw [if_neg Bool.false_ne_true]
    refine h.moved hcamera hcaptured (by rw [htaken]) ⟨?_, hidle, hdead, done, l, cut, ?_⟩
    · simp [hheld, hk]
    · dsimp only
      rw [jpeg_congr hcaptured]
      exact ⟨⟨hbegun.begun, hbegun.sent⟩, hcut, htext⟩

/-! ## The task sends -/

/-- A frame in the task's hands. -/
theorem Inv.held_frame (h : s.Inv) {k : ℕ} {frame : Frame} (hk : k ∈ s.camera.held)
    (hframe : s.camera.taken[k]? = some frame) :
    frame.size.toNat = (jpeg s.camera k).length ∧
      ∀ i, i < frame.size.toNat → frameByte s.camera.stream frame i = (jpeg s.camera k).getD i 0 := by
  obtain ⟨f, hf, rfl⟩ := h.camera.captured_of_taken hframe
  obtain ⟨-, -, hmemory⟩ := h.camera.owned k f (.inl hk) hf
  have hjpeg : jpeg s.camera k = jpegOf f := by rw [jpeg, hf, Option.map_some, Option.getD_some]
  have hslot : f.frame.data / c.slotSize = f.slot := Nat.mul_div_cancel _ c.size_pos
  rw [hjpeg, length_jpegOf (h.whole f (List.mem_of_getElem? hf))]
  refine ⟨rfl, fun i hi => ?_⟩
  have hi : i < f.size.toNat := hi
  simp only [frameByte, hslot, f.slot.isLt, dif_pos, Fin.eta, hmemory]
  rw [jpegOf, List.getD_eq_getElem?_getD, List.getD_eq_getElem?_getD, List.getElem?_take_of_lt hi]

theorem Inv.headStep (h : s.Inv) {k : ℕ} (hpc : s.pc = .head k) {frame : Frame}
    (hframe : s.camera.taken[k]? = some frame) : (s.sendHead k frame).Inv := by
  obtain ⟨hidle, hb⟩ : s.camera.get = .idle ∧ s.Between [k] := by
    have hstage := h.stage
    rwa [hpc] at hstage
  have hheld : k ∈ s.camera.held := by simp [hb.held]
  obtain ⟨hsize, -⟩ := h.held_frame hheld hframe
  have hanswer := respondBinary_answer (r := s.response.setMore true) h.mode
    (partBody frame.size) nofun
  have hbytes : (partBody frame.size).bytes = partHead (jpeg s.camera k).length := by
    rw [← hsize]
    rfl
  rw [hbytes] at hanswer
  have hbegun : ∀ t : Session c, t.begun = s.begun ++ [k] → t.sent = s.sent →
      t.Begun s.begun k := fun t hbegun hsent => ⟨hbegun, hsent.trans hb.sent⟩
  unfold sendHead
  cases hsent : (s.response.setMore true).respondBinary (partBody frame.size) with
  | mk ok response =>
    rw [hsent] at hanswer
    refine ⟨h.camera, h.whole, hanswer.mode, ?_, fun b hb' => ?_, ?_⟩
    · refine List.pairwise_append.mpr ⟨h.order, List.pairwise_singleton .., fun b hb' j hj => ?_⟩
      rw [List.mem_singleton.mp hj]
      exact hb.before b hb' k List.mem_cons_self
    · rcases List.mem_append.mp hb' with hb' | hb'
      · exact h.begun_lt b hb'
      · rw [List.mem_singleton.mp hb']
        exact h.camera.held_lt k hheld
    · cases ok with
      | true =>
        refine ⟨List.nil_prefix, hb.held, hidle, s.begun, hbegun _ rfl rfl, ?_⟩
        exact (hanswer.sent rfl).trans (congrArg (· ++ _) hb.text)
      | false =>
        obtain ⟨hdead, htext⟩ := hanswer.lost rfl
        rcases htext with htext | htext
        · refine ⟨hb.held, hidle, hdead, s.begun, k, [], hbegun _ rfl rfl, List.nil_prefix, ?_⟩
          rw [List.append_nil]
          exact htext.trans hb.text
        · refine ⟨hb.held, hidle, hdead, s.begun, k, partHead (jpeg s.camera k).length,
            hbegun _ rfl rfl, ?_, ?_⟩
          · dsimp only
            rw [part, List.append_assoc]
            exact List.prefix_append ..
          · exact htext.trans (congrArg (· ++ _) hb.text)

/-- Copied bytes continue a front part. -/
theorem copied_prefix {l read : List UInt8} (hread : read <+: l) {m : ℕ} {byte : ℕ → UInt8}
    (hm : read.length + m ≤ l.length)
    (hbyte : ∀ i, read.length ≤ i → i < read.length + m → byte i = l.getD i 0) :
    read ++ (List.range' read.length m).map byte <+: l := by
  obtain ⟨rest, rfl⟩ := hread
  rw [List.prefix_append_right_inj, List.prefix_iff_eq_take]
  refine List.ext_getElem (by simpa using hm) fun i hi _ => ?_
  rw [List.length_map, List.length_range'] at hi
  rw [List.getElem_map, List.getElem_range', Nat.one_mul, hbyte _ (by omega) (by omega),
    List.getElem_take, List.getD_append_right _ _ _ _ (by omega), Nat.add_sub_cancel_left]
  exact (List.getElem_eq_getD 0).symm

theorem Inv.dataStep (h : s.Inv) {k : ℕ} {read : List UInt8} (hpc : s.pc = .data k read)
    {frame : Frame} (hframe : s.camera.taken[k]? = some frame) (n : ℕ) :
    (s.sendData k frame read n).Inv := by
  obtain ⟨hread, hd⟩ : read <+: jpeg s.camera k ∧
      s.During k (partHead (jpeg s.camera k).length) := by
    have hstage := h.stage
    rwa [hpc] at hstage
  obtain ⟨hsize, hbyte⟩ := h.held_frame (by simp [hd.held]) hframe
  obtain ⟨done, hbegun, htext⟩ := hd.out
  unfold sendData
  split_ifs with hall
  · have hanswer := respondBinary_answer h.mode
      ⟨frame.size, some ⟨read, hall⟩⟩ nofun
    have hbytes : Body.bytes ⟨frame.size, some ⟨read, hall⟩⟩ = jpeg s.camera k :=
      hread.eq_of_length (hall.trans hsize)
    rw [hbytes] at hanswer
    cases hsent : s.response.respondBinary ⟨frame.size, some ⟨read, hall⟩⟩ with
    | mk ok response =>
      rw [hsent] at hanswer
      refine ⟨h.camera, h.whole, hanswer.mode, h.order, h.begun_lt, ?_⟩
      cases ok with
      | true =>
        refine ⟨hd.held, hd.idle, done, ⟨hbegun.begun, hbegun.sent⟩, ?_⟩
        refine (hanswer.sent rfl).trans ?_
        rw [htext, List.append_assoc]
      | false =>
        obtain ⟨hdead, hout⟩ := hanswer.lost rfl
        refine ⟨hd.held, hd.idle, hdead, done, k, ?_⟩
        rcases hout with hout | hout
        · refine ⟨partHead (jpeg s.camera k).length, ⟨hbegun.begun, hbegun.sent⟩, ?_,
            hout.trans htext⟩
          dsimp only
          rw [part, List.append_assoc]
          exact List.prefix_append ..
        · refine ⟨partHead (jpeg s.camera k).length ++ jpeg s.camera k,
            ⟨hbegun.begun, hbegun.sent⟩, List.prefix_append .., ?_⟩
          refine hout.trans ?_
          rw [htext, List.append_assoc]
  · refine ⟨h.camera, h.whole, h.mode, h.order, h.begun_lt, ?_, hd.held, hd.idle, done,
      ⟨hbegun.begun, hbegun.sent⟩, htext⟩
    have hle := hread.length_le
    exact copied_prefix hread (by omega) fun i _ hi => hbyte i (by omega)

theorem Inv.tailStep (h : s.Inv) {k : ℕ} {ok : Bool} (hpc : s.pc = .tail k ok) :
    (s.sendTail k ok).Inv := by
  have hstage := h.stage
  rw [hpc] at hstage
  cases ok with
  | false =>
    obtain ⟨hheld, hidle, hdead, done, l, cut, hbegun, hcut, htext⟩ := hstage
    exact ⟨h.camera, h.whole, h.mode, h.order, h.begun_lt, hheld, hidle, hdead, done, l, cut,
      ⟨hbegun.begun, hbegun.sent⟩, hcut, htext⟩
  | true =>
    obtain ⟨hheld, hidle, done, hbegun, htext⟩ := hstage
    have hanswer := respondBinary_answer (r := s.response.setMore false) h.mode
      (.ofString (some crlf)) nofun
    have hbytes : (Body.ofString (some crlf)).bytes = crlf.val := rfl
    rw [hbytes] at hanswer
    have htail : s.sendTail k true = { s with
        response := ((s.response.setMore false).respondBinary (.ofString (some crlf))).2
        pc := .release k ((s.response.setMore false).respondBinary (.ofString (some crlf))).1 } :=
      rfl
    rw [htail]
    cases hsent : (s.response.setMore false).respondBinary (.ofString (some crlf)) with
    | mk ok response =>
      rw [hsent] at hanswer
      refine ⟨h.camera, h.whole, hanswer.mode, h.order, h.begun_lt, ?_⟩
      cases ok with
      | true =>
        refine ⟨hheld, hidle, done, ⟨hbegun.begun, hbegun.sent⟩, ?_⟩
        refine (hanswer.sent rfl).trans ?_
        show bodyText s.response ++ _ = _
        rw [htext, List.append_assoc]
        rfl
      | false =>
        obtain ⟨hdead, hout⟩ := hanswer.lost rfl
        refine ⟨hheld, hidle, hdead, done, k, ?_⟩
        rcases hout with hout | hout
        · exact ⟨_, ⟨hbegun.begun, hbegun.sent⟩, List.prefix_append .., hout.trans htext⟩
        · refine ⟨_, ⟨hbegun.begun, hbegun.sent⟩, List.prefix_refl _, hout.trans ?_⟩
          show bodyText s.response ++ _ = _
          rw [htext, List.append_assoc]
          rfl

/-! ## Every run -/

theorem Inv.step (hdvd : c.slotCount ∣ 2 ^ 32) (h : s.Inv) {l : Label} (hstep : s.step l = some t) :
    t.Inv := by
  cases l with
  | dma content =>
    obtain ⟨camera, hcamera, rfl⟩ := Option.map_eq_some_iff.mp hstep
    exact h.behind (behind_dma hcamera) (h.camera.dmaStore content hcamera)
  | endFrame bytes size =>
    have hend : (s.camera.step (.endFrame bytes size)).map (fun camera => { s with camera }) =
      some t := hstep
    obtain ⟨camera, hcamera, rfl⟩ := Option.map_eq_some_iff.mp hend
    exact h.behind (behind_endFrame hcamera)
      (h.camera.step (System.Inv.fits_of_dvd h.camera hdvd _) hcamera)
  | task n =>
    have htask : s.taskStep n = some t := hstep
    unfold taskStep at htask
    split at htask <;> rename_i hpc
    · obtain ⟨⟨got, camera⟩, hgot, rfl⟩ := Option.map_eq_some_iff.mp htask
      exact h.pollStep hdvd hpc hgot
    · obtain ⟨⟨got, camera⟩, hgot, rfl⟩ := Option.map_eq_some_iff.mp htask
      exact h.newerStep hdvd hpc hgot
    · obtain ⟨camera, hcamera, rfl⟩ := Option.map_eq_some_iff.mp htask
      exact h.swapStep hdvd hpc hcamera
    · obtain ⟨frame, hframe, rfl⟩ := Option.map_eq_some_iff.mp htask
      exact h.headStep hpc hframe
    · obtain ⟨frame, hframe, rfl⟩ := Option.map_eq_some_iff.mp htask
      exact h.dataStep hpc hframe n
    · obtain rfl := Option.some.inj htask
      exact h.tailStep hpc
    · obtain ⟨camera, hcamera, rfl⟩ := Option.map_eq_some_iff.mp htask
      exact h.releaseStep hdvd hpc hcamera
    · cases htask

theorem inv_start (memory : Slot c → List UInt8) {response : Response}
    (hmode : response.lengthMode = .none) (hnone : response.wire.handed = []) :
    (start memory response).Inv where
  camera := System.inv_start memory
  whole := nofun
  mode := hmode
  order := List.Pairwise.nil
  begun_lt := nofun
  stage := ⟨rfl, nofun, rfl, by simp [start, bodyText, hnone, shown]⟩

/-- What is out lies between the parts that are complete and those that were begun. -/
theorem Inv.out (h : s.Inv) : ∃ done, done <+: s.begun ∧ s.begun.length ≤ done.length + 1 ∧
    s.sent = UInt32.ofNat done.length ∧
    multipart.stream (done.map (jpeg s.camera)) <+: bodyText s.response ∧
    bodyText s.response <+: multipart.stream s.shown := by
  have hbetween : ∀ {hands}, s.Between hands → ∃ done, done <+: s.begun ∧
      s.begun.length ≤ done.length + 1 ∧ s.sent = UInt32.ofNat done.length ∧
      multipart.stream (done.map (jpeg s.camera)) <+: bodyText s.response ∧
      bodyText s.response <+: multipart.stream s.shown := fun hb =>
    ⟨s.begun, List.prefix_refl _, Nat.le_succ _, hb.sent, hb.text ▸ List.prefix_refl _,
      hb.text ▸ List.prefix_refl _⟩
  have hbegun : ∀ {done k cut}, s.Begun done k → cut <+: part (jpeg s.camera k) →
      bodyText s.response = multipart.stream (done.map (jpeg s.camera)) ++ cut →
      ∃ done, done <+: s.begun ∧ s.begun.length ≤ done.length + 1 ∧
        s.sent = UInt32.ofNat done.length ∧
        multipart.stream (done.map (jpeg s.camera)) <+: bodyText s.response ∧
        bodyText s.response <+: multipart.stream s.shown := by
    intro done k cut hb hcut htext
    refine ⟨done, hb.begun ▸ List.prefix_append .., by simp [hb.begun], hb.sent,
      htext ▸ List.prefix_append .., ?_⟩
    rw [htext, shown, hb.begun, List.map_append, Format.stream_append,
      List.prefix_append_right_inj, List.map_singleton, Format.stream_singleton]
    exact hcut
  have hduring : ∀ {k text}, s.During k text → text <+: part (jpeg s.camera k) → _ :=
    fun hd htext => hd.out.elim fun done hout => hbegun hout.1 htext hout.2
  have hbroken : ∀ {hands}, s.Broken hands → _ := fun hb =>
    hb.out.elim fun done ⟨k, cut, hout⟩ => hbegun hout.1 hout.2.1 hout.2.2
  have hhead : ∀ k, partHead (jpeg s.camera k).length <+: part (jpeg s.camera k) := fun k => by
    rw [part, List.append_assoc]
    exact List.prefix_append ..
  have hstage := h.stage
  unfold Stage at hstage
  split at hstage
  · exact hbetween hstage
  · exact hbetween hstage
  · exact hbetween hstage.2.2
  · exact hbetween hstage.2
  · exact hduring hstage.2 (hhead _)
  · exact hduring hstage (List.prefix_append ..)
  · exact hduring hstage (List.prefix_refl _)
  · exact hbroken hstage
  · exact hbroken hstage
  · exact hbroken hstage

/-- The task can always go on. -/
theorem Inv.enabled (h : s.Inv) (hpc : s.pc ≠ .closed) (n : ℕ) : (s.step (.task n)).isSome := by
  have hget : (getStep s.camera).isSome := by
    unfold getStep
    cases hpc : s.camera.get <;> simp [System.step, hpc]
  have htaken : ∀ {k}, k ∈ s.camera.held → (s.camera.taken[k]?).isSome := fun hk => by
    rw [List.getElem?_eq_getElem (h.camera.held_lt _ hk)]
    rfl
  have hrelease : ∀ {k}, k ∈ s.camera.held → s.camera.get = .idle →
      (s.camera.step (.release k)).isSome := by
    intro k hk hidle
    simp [System.step, hidle, List.getElem?_eq_getElem (h.camera.held_lt _ hk), hk]
  have hstage := h.stage
  show (s.taskStep n).isSome
  unfold taskStep
  cases hp : s.pc with
  | closed => exact absurd hp hpc
  | poll | newer k => simpa using hget
  | tail k ok => rfl
  | swap k l =>
    rw [hp] at hstage
    simpa using hrelease (by simp [hstage.2.2.held]) hstage.1
  | head k =>
    rw [hp] at hstage
    simpa using htaken (by simp [hstage.2.held])
  | data k read =>
    rw [hp] at hstage
    simpa using htaken (by simp [hstage.2.held])
  | release k ok =>
    rw [hp] at hstage
    cases ok with
    | true => simpa using hrelease (by simp [hstage.held]) hstage.idle
    | false => simpa using hrelease (by simp [hstage.held]) hstage.idle

/-- What a client has read of the stream so far, and what the task and the camera know. -/
structure Sound (s : Session c) : Prop where
  client : ∀ got, got <+: bodyText s.response → multipart.readAll got <+: s.shown
  jpegs : ∀ text ∈ s.shown, Jpeg text
  order : s.begun.Pairwise (· < ·) ∧ ∀ k ∈ s.begun, k < s.camera.captured.length
  counted : ∃ n, s.sent = UInt32.ofNat n ∧
    n ≤ (multipart.readAll (bodyText s.response)).length ∧ s.begun.length ≤ n + 1
  given : s.pc = .poll ∨ s.pc = .closed → s.camera.held = []
  closed : s.pc = .closed → s.response.Dead
  runs : s.pc ≠ .closed → ∀ n, (s.step (.task n)).isSome

theorem Inv.sound (h : s.Inv) : s.Sound where
  client got hgot := by
    obtain ⟨-, -, -, -, -, htext⟩ := h.out
    exact multipart.readAll_cut (hgot.trans htext)
  jpegs text htext := by
    obtain ⟨k, hk, rfl⟩ := List.mem_map.mp htext
    have hlt := h.lt_captured (.inl hk)
    rw [jpeg, List.getElem?_eq_getElem hlt]
    exact (h.whole _ (List.getElem_mem hlt)).jpeg
  order := ⟨h.order, fun k hk => h.lt_captured (.inl hk)⟩
  counted := by
    obtain ⟨done, hdone, hle, hsent, hwhole, htext⟩ := h.out
    refine ⟨done.length, hsent, ?_, hle⟩
    have hread := (multipart.whole_readAll htext (hdone.map _) hwhole).length_le
    rwa [List.length_map] at hread
  given hpc := by
    have hstage := h.stage
    rcases hpc with hpc | hpc <;> rw [hpc] at hstage
    · exact hstage.held
    · exact hstage.held
  closed hpc := by
    have hstage := h.stage
    rw [hpc] at hstage
    exact hstage.dead
  runs := h.enabled

end Session

/-- A frame is sent while the next one lands; the connection is lost at its end. -/
def sendOne : List Label :=
  [.endFrame 0 0, .dma System.smallFrame, .endFrame 9 4] ++ List.replicate 6 (.task 0) ++
    [.task 2, .dma [0xFF], .task 9, .endFrame 1 1] ++ List.replicate 3 (.task 0)

/-- Beside the current slot there is one for the frame in hand, and none for another. -/
theorem live_of_two (htwo : c.slotCount = 2) {s : System c} (h : s.Inv) {k l : ℕ} (hk : s.Live k)
    (hl : s.Live l) (hkc : k < s.captured.length) (hlc : l < s.captured.length) : k = l := by
  have hf := List.getElem?_eq_getElem hkc
  have hg := List.getElem?_eq_getElem hlc
  have hne := Fin.val_ne_of_ne (h.owned k _ hk hf).1
  have hne' := Fin.val_ne_of_ne (h.owned l _ hl hg).1
  refine h.distinct k l _ _ hk hl hf hg (Fin.ext ?_)
  have hlt := s.stream.current.isLt
  have hlt₁ := (s.captured[k]).slot.isLt
  have hlt₂ := (s.captured[l]).slot.isLt
  omega

/-- With two slots no frame waits while the task has one, and the one it has is never exchanged for
a newer one. -/
theorem streamFrames_only (htwo : c.slotCount = 2) (memory : Slot c → List UInt8)
    (stop : Option ℕ) (taken : ℕ → ℤ) (ls : List Label) (s : Session c)
    (hrun : runSteps Session.step (.start memory (streamResponse stop taken)) ls = some s) :
    (∀ k ∈ s.camera.held, s.camera.held = [k] ∧
      s.camera.captured.length = s.camera.taken.length) ∧ ∀ k l, s.pc ≠ .swap k l := by
  have hdvd : c.slotCount ∣ 2 ^ 32 := by rw [htwo]; decide
  have hinv : s.Inv := invariant_of_steps
    (fun _ _ _ hinv hstep => Session.Inv.step hdvd hinv hstep)
    (Session.inv_start memory rfl rfl) hrun
  have honly : ∀ {k l}, k ∈ s.camera.held → s.camera.Live l → l < s.camera.captured.length →
      k = l := fun hk hl hlt =>
    live_of_two htwo hinv.camera (.inl hk) hl (hinv.lt_captured (.inr hk)) hlt
  refine ⟨fun k hk => ⟨?_, ?_⟩, fun k l hpc => ?_⟩
  · have hall : s.camera.held = List.replicate s.camera.held.length k :=
      List.eq_replicate_of_mem fun l hl => (honly hk (.inl hl) (hinv.lt_captured (.inr hl))).symm
    have hone := hinv.camera.held_nodup
    rw [hall, List.nodup_replicate] at hone
    have hpos := List.length_pos_of_mem hk
    rw [hall, show s.camera.held.length = 1 by omega]
    rfl
  · by_contra hne
    have hlt : s.camera.taken.length < s.camera.captured.length :=
      lt_of_le_of_ne hinv.camera.taken_le (Ne.symm hne)
    have hlast := honly hk (.inr (Nat.le_refl _)) hlt
    have hk := hinv.camera.held_lt k hk
    omega
  · have hstage := hinv.stage
    rw [hpc] at hstage
    obtain ⟨-, hlt, hb⟩ := hstage
    have hl : l ∈ s.camera.held := by simp [hb.held]
    have heq := honly (k := k) (by simp [hb.held]) (.inl hl) (hinv.lt_captured (.inr hl))
    omega

theorem streamFrames_only_sendOne : ∃ s : Session webSlots,
    runSteps Session.step (.start (fun _ => []) (streamResponse none fun _ => 0))
      (sendOne.take 9) = some s ∧ s.camera.held = [0] ∧ s.camera.captured.length = 1 := by
  have hend : (runSteps Session.step (.start (fun _ : Slot webSlots => [])
      (streamResponse none fun _ => 0)) (sendOne.take 9)).map
      (fun s => (s.camera.held, s.camera.taken.length)) = some ([0], 1) := by decide +kernel
  obtain ⟨s, hs, heq⟩ := Option.map_eq_some_iff.mp hend
  obtain ⟨hheld, htaken⟩ := Prod.mk.inj heq
  obtain ⟨honly, -⟩ := streamFrames_only rfl _ _ _ (sendOne.take 9) s hs
  exact ⟨s, hs, hheld, (honly 0 (by simp [hheld])).2.trans htaken⟩

end BekenCam.Mjpeg
