import BekenCam.CameraStream

/-!
# The cursors of the frame queue

The cursors count on past the end of a word and start again at zero, and the entry of a frame is the
remainder of its cursor. With a slot count that divides the words the entries go round evenly; with
another, two frames on both sides of the wrap can share one.
-/
namespace BekenCam.Camera

variable {c : StreamConfig}

/-- No frame from the tail on has its entry at the head. -/
def Stream.HeadFree (s : Stream c) : Prop :=
  ∀ i < (s.head - s.tail).toNat,
    (s.tail + UInt32.ofNat i).toNat % c.slotCount ≠ s.head.toNat % c.slotCount

namespace System

variable {s t : System c}

/-- The interrupt does not queue a frame where another waits. -/
def HeadFits (s : System c) : Label → Prop
  | .endFrame bytes size => s.Queues bytes size → s.stream.HeadFree
  | _ => True

/-- `camera_stream_get` has returned the frames that were queued, from the first on, and finds the
queue empty when it has returned them all. -/
structure InOrder (s : System c) : Prop where
  taken : s.taken = (s.captured.take s.taken.length).map Captured.frame
  empty : s.stream.tail = s.stream.head ↔ s.taken.length = s.captured.length

namespace Inv

theorem pending_toNat (h : s.Inv) :
    (s.stream.head - s.stream.tail).toNat = s.captured.length - s.taken.length := by
  have hpending := h.pending_lt
  have hcount := c.count_le
  rw [h.head, h.tail, ← UInt32.ofNat_sub h.taken_le]
  exact UInt32.toNat_ofNat_of_lt' (by rw [UInt32.size]; omega)

theorem headFree_iff (h : s.Inv) : s.stream.HeadFree ↔ s.Room := by
  have hhead : s.stream.head.toNat % c.slotCount = entry c s.captured.length := by
    rw [h.head, entry]
  have htail (i : ℕ) : (s.stream.tail + UInt32.ofNat i).toNat % c.slotCount =
      entry c (s.taken.length + i) := by
    rw [h.tail, ← UInt32.ofNat_add, entry]
  unfold Stream.HeadFree Room
  rw [h.pending_toNat, hhead]
  simp only [htail]
  constructor
  · intro hfree k hle hlt
    have hne := hfree (k - s.taken.length) (by omega)
    rwa [Nat.add_sub_cancel' hle] at hne
  · intro hroom i hi
    exact hroom _ (Nat.le_add_right _ _) (by omega)

theorem fits_of_headFits (h : s.Inv) {l : Label} (hfits : s.HeadFits l) : s.Fits l := by
  cases l with
  | endFrame bytes size => exact fun hqueues => h.headFree_iff.mp (hfits hqueues)
  | dma | get | getStep | release => trivial

/-- The entries of a count that divides the words never meet. -/
theorem fits_of_dvd (h : s.Inv) (hdvd : c.slotCount ∣ 2 ^ 32) (l : Label) : s.Fits l := by
  have hentry (k : ℕ) : entry c k = k % c.slotCount := by
    rw [entry, UInt32.toNat_ofNat', Nat.mod_mod_of_dvd _ hdvd]
  cases l with
  | endFrame bytes size =>
    intro _ k hle hlt
    have hpending := h.pending_lt
    have hne := mod_ne_of_lt (o := 0) hlt (show s.captured.length < k + c.slotCount by omega)
    rwa [Nat.zero_add, Nat.zero_add, ← hentry, ← hentry] at hne
  | dma | get | getStep | release => trivial

theorem inOrder (h : s.Inv) : s.InOrder where
  taken := h.taken
  empty := by
    have hpending := h.pending_toNat
    have hle := h.taken_le
    constructor
    · intro heq
      rw [heq, UInt32.sub_self] at hpending
      have hzero : (0 : UInt32).toNat = 0 := rfl
      omega
    · intro heq
      rw [h.tail, h.head, heq]

end Inv

/-- The frames come back in the order they were queued when the slot count divides the words, and
otherwise in every run that queues none where another waits. -/
theorem camera_stream_in_order (memory : Slot c → List UInt8) (ls : List Label) (s : System c)
    (hrun : runSteps step (start memory) ls = some s)
    (hfits : c.slotCount ∣ 2 ^ 32 ∨ Within step HeadFits (start memory) ls) : s.InOrder := by
  rcases hfits with hdvd | hfits
  · exact (invariant_of_steps (fun s l t hinv hstep =>
      Inv.step hinv (Inv.fits_of_dvd hinv hdvd l) hstep) (inv_start memory) hrun).inOrder
  · exact (invariant_of_within (fun s l t hinv hok hstep =>
      Inv.step hinv (Inv.fits_of_headFits hinv hok) hstep) (inv_start memory) hfits hrun).inOrder

theorem camera_stream_in_order_takeOne : ∃ s : System twoSlots,
    runSteps step (start fun _ => []) takeOne = some s ∧ s.InOrder ∧ s.taken = [⟨0, 4⟩] := by
  have hend : (runSteps step (start fun _ : Slot twoSlots => []) takeOne).map System.taken =
      some [⟨0, 4⟩] := by decide +kernel
  obtain ⟨s, hs, htaken⟩ := Option.map_eq_some_iff.mp hend
  exact ⟨s, hs, camera_stream_in_order _ takeOne s hs (.inl (by decide)), htaken⟩

/-! ## Past the wrap -/

theorem whole_smallFrame {s : Stream c} (hmemory : s.memory s.current = smallFrame)
    (hsize : 9 ≤ c.slotSize) : s.whole 9 4 = true := by
  unfold Stream.whole
  rw [hmemory, show (9 : UInt32).toNat = 9 from rfl, decide_eq_true hsize]
  rfl

/-- A frame has landed in the current slot and was queued. -/
def landed (s : System c) (next : Slot c) : System c :=
  { s with
    captured := s.captured ++ [⟨s.stream.current, 4, smallFrame⟩]
    stream := (Stream.close { s.stream with
      memory := Function.update s.stream.memory s.stream.current smallFrame } next 4).arm next }

theorem runSteps_landed (hsize : 9 ≤ c.slotSize) (harmed : s.stream.armed = true)
    (hdma : s.stream.dma = some s.stream.current) (hfree : s.anotherFree) :
    ∃ next, next ≠ s.stream.current ∧ s.stream.busy next = false ∧
      runSteps step s [.dma smallFrame, .endFrame 9 4] = some (s.landed next) := by
  obtain ⟨s₁, hs₁⟩ : ∃ s₁ : System c, s₁ = { s with stream := { s.stream with
      memory := Function.update s.stream.memory s.stream.current smallFrame } } := ⟨_, rfl⟩
  have hstore : step s (.dma smallFrame) = some s₁ := by rw [step, hdma, hs₁, Option.map_some]
  have harmed₁ : s₁.stream.armed = true := by rw [hs₁]; exact harmed
  have hwhole : s₁.stream.whole 9 4 = true := by
    rw [hs₁]
    exact whole_smallFrame (Function.update_self ..) hsize
  have hfree₁ : s₁.anotherFree := by rw [hs₁]; exact hfree
  rcases s₁.stream.onEndFrame_cases 9 4 harmed₁ with ⟨next, hne, hbusy, -, hend⟩ | ⟨hnot, -⟩
  · have hrecord : s₁.record 9 4 =
        { s₁ with captured := s₁.captured ++ [s₁.stream.ending 4] } := by
      simp only [record, harmed₁, Bool.not_true, Bool.false_eq_true, if_false,
        if_pos (And.intro hwhole hfree₁)]
    subst hs₁
    refine ⟨next, hne, hbusy, ?_⟩
    rw [runSteps, hstore, Option.bind_some, runSteps, step, hrecord, hend, Option.bind_some,
      runSteps_nil]
    simp [Stream.ending, landed]
  · exact absurd ⟨hwhole, hfree₁⟩ hnot

theorem inv_landed (h : s.Inv) (hroom : s.Room) {next : Slot c}
    (hrun : runSteps step s [.dma smallFrame, .endFrame 9 4] = some (s.landed next)) :
    (s.landed next).Inv := by
  obtain ⟨s₁, hstore, hrest⟩ := runSteps_cons hrun
  obtain ⟨s₂, hend, hnil⟩ := runSteps_cons hrest
  obtain rfl := Option.some.inj hnil
  have hinv := h.dmaStore smallFrame hstore
  obtain ⟨slot, -, rfl⟩ := Option.map_eq_some_iff.mp hstore
  exact hinv.endFrame hend fun _ => hroom

/-- The frame at the tail was taken. -/
def tookTail (s : System c) : System c :=
  { s with
    stream := { s.stream with tail := s.stream.tail + 1 }
    taken := s.taken ++ [⟨streamSlotPtr s.stream.tailSlot, s.stream.size s.stream.tailSlot⟩]
    held := s.held ++ [s.taken.length] }

def takeTail : List Label := [.get, .getStep, .getStep, .getStep]

theorem runSteps_takeTail (hidle : s.get = .idle) (hsome : s.stream.tail ≠ s.stream.head) :
    runSteps step s takeTail = some s.tookTail := by
  simp only [takeTail, tookTail, runSteps, step, hidle, if_neg hsome, Option.bind_some]

/-- The only frame in the consumer's hands was given back. -/
def gaveBack (s : System c) (slot : Slot c) : System c :=
  { s with stream := { s.stream with busy := Function.update s.stream.busy slot false }, held := [] }

theorem step_gaveBack {k : ℕ} {slot : Slot c} {size : UInt32} (hidle : s.get = .idle)
    (htaken : s.taken[k]? = some ⟨streamSlotPtr slot, size⟩) (hheld : s.held = [k]) :
    step s (.release k) = some (s.gaveBack slot) := by
  simp only [step, hidle, htaken, hheld, List.mem_singleton, if_true, Stream.releaseFrame_ptr,
    List.erase_cons_head, gaveBack]

/-- What the consumer does alone keeps the invariant. -/
theorem inv_consumer (h : s.Inv) {ls : List Label}
    (hls : ∀ l ∈ ls, ∀ bytes size, l ≠ .endFrame bytes size)
    (hrun : runSteps step s ls = some t) : t.Inv := by
  induction ls generalizing s with
  | nil =>
    obtain rfl := Option.some.inj hrun
    exact h
  | cons l ls ih =>
    obtain ⟨s₁, hstep, hrest⟩ := runSteps_cons hrun
    have hfits : s.Fits l := by
      cases l with
      | endFrame bytes size => exact absurd rfl (hls _ List.mem_cons_self bytes size)
      | dma | get | getStep | release => trivial
    exact ih (h.step hfits hstep) (fun l hl => hls l (List.mem_cons_of_mem _ hl)) hrest

/-- All slots but the current one are free, and `n` frames were queued and taken. -/
structure Rest (s : System c) (n : ℕ) : Prop where
  inv : s.Inv
  armed : s.stream.armed = true
  dma : s.stream.dma = some s.stream.current
  idle : s.get = .idle
  held : s.held = []
  taken : s.taken.length = n
  captured : s.captured.length = n
  free : ∀ slot, slot ≠ s.stream.current → s.stream.busy slot = false

namespace Rest

variable {n : ℕ}

theorem anotherFree (h : s.Rest n) : s.anotherFree := by
  have : Nontrivial (Slot c) := Fin.nontrivial_iff_two_le.mpr c.count_ge
  obtain ⟨slot, hslot⟩ := exists_ne s.stream.current
  exact ⟨slot, hslot, h.free slot hslot⟩

theorem room (h : s.Rest n) : s.Room := by
  intro k hle hlt
  rw [h.taken] at hle
  rw [h.captured] at hlt
  omega

theorem tail_eq (h : s.Rest n) : s.stream.tail = s.stream.head := by
  rw [h.inv.head, h.inv.tail, h.taken, h.captured]

/-- A frame is captured, taken and given back. -/
theorem next (h : s.Rest n) (hsize : 9 ≤ c.slotSize) :
    ∃ ls t, runSteps step s ls = some t ∧ t.Rest (n + 1) := by
  obtain ⟨next, hne, hbusy, hland⟩ := runSteps_landed hsize h.armed h.dma h.anotherFree
  have hinv₁ := inv_landed h.inv h.room hland
  have htail₁ : (s.landed next).stream.tail ≠ (s.landed next).stream.head := by
    change s.stream.tail ≠ s.stream.head + 1
    rw [h.tail_eq]
    intro heq
    have hnat := congrArg UInt32.toNat heq
    rw [UInt32.toNat_add] at hnat
    have hone : (1 : UInt32).toNat = 1 := rfl
    have hlt := s.stream.head.toNat_lt
    omega
  have htake := runSteps_takeTail (s := s.landed next) h.idle htail₁
  have hinv₂ := inv_consumer hinv₁ (by simp [takeTail]) htake
  -- the frame at the tail is the one that landed
  have hcaptured : (s.landed next).captured = s.captured ++ [⟨s.stream.current, 4, smallFrame⟩] :=
    rfl
  have hslot : (s.landed next).stream.tailSlot = s.stream.current := by
    have hlt : (s.landed next).taken.length < (s.landed next).captured.length := by
      rw [hcaptured, List.length_append, List.length_singleton, h.captured]
      change s.taken.length < n + 1
      rw [h.taken]
      exact Nat.lt_succ_self n
    obtain ⟨f, hf, htailSlot⟩ := hinv₁.tailSlot hlt
    change (s.captured ++ [_])[s.taken.length]? = some f at hf
    rw [List.getElem?_append_right (by rw [h.taken, h.captured]), h.taken, h.captured,
      Nat.sub_self] at hf
    rw [htailSlot, ← Option.some.inj hf]
  have hrelease : step (s.landed next).tookTail (.release n) =
      some ((s.landed next).tookTail.gaveBack s.stream.current) := by
    refine @step_gaveBack _ _ _ _ ((s.landed next).stream.size s.stream.current) h.idle ?_ ?_
    · change (s.taken ++ [_])[n]? = _
      rw [List.getElem?_append_right h.taken.le, h.taken, Nat.sub_self, hslot]
      rfl
    · change s.held ++ [s.taken.length] = [n]
      rw [h.held, h.taken]
      rfl
  refine ⟨[.dma smallFrame, .endFrame 9 4] ++ (takeTail ++ [.release n]),
    (s.landed next).tookTail.gaveBack s.stream.current, ?_, ?_⟩
  · rw [runSteps_append, hland, Option.bind_some, runSteps_append, htake, Option.bind_some,
      runSteps, hrelease]
    rfl
  · exact {
      inv := hinv₂.release hrelease
      armed := h.armed
      dma := rfl
      idle := h.idle
      held := rfl
      taken := by
        change (s.taken ++ [_]).length = n + 1
        rw [List.length_append, h.taken]
        rfl
      captured := by
        change (s.captured ++ [_]).length = n + 1
        rw [List.length_append, h.captured]
        rfl
      free := fun slot hne' => by
        change slot ≠ next at hne'
        change Function.update (Function.update s.stream.busy next true) s.stream.current false
          slot = false
        by_cases hcur : slot = s.stream.current
        · rw [hcur]
          exact Function.update_self ..
        · rw [Function.update_of_ne hcur, Function.update_of_ne hne']
          exact h.free slot hcur }

theorem run (h : s.Rest 0) (hsize : 9 ≤ c.slotSize) (n : ℕ) :
    ∃ ls t, runSteps step s ls = some t ∧ t.Rest n := by
  induction n with
  | zero => exact ⟨[], s, rfl, h⟩
  | succ n ih =>
    obtain ⟨ls, t, hrun, ht⟩ := ih
    obtain ⟨ls', t', hrun', ht'⟩ := ht.next hsize
    refine ⟨ls ++ ls', t', ?_, ht'⟩
    rw [runSteps_append, hrun, Option.bind_some, hrun']

end Rest

def threeSlots : StreamConfig := ⟨12, 3, twoSlots.size_pos, by decide, by decide⟩

theorem exists_rest : ∃ s : System threeSlots,
    runSteps step (start fun _ => []) [.endFrame 0 0] = some s ∧ s.Rest 0 := by
  have hstart := inv_start fun _ : Slot threeSlots => []
  have hstep : step (start fun _ : Slot threeSlots => []) (.endFrame 0 0) = some _ := rfl
  refine ⟨_, rfl, hstart.endFrame hstep nofun, rfl, rfl, rfl, rfl, rfl, rfl, ?_⟩
  decide

/-- The last frame before the wrap and the first behind it share an entry: of three slots the
second is returned first. -/
theorem camera_stream_not_in_order : ¬∀ (c : StreamConfig) (memory : Slot c → List UInt8)
    (ls : List Label) (s : System c), runSteps step (start memory) ls = some s → s.InOrder := by
  intro hclaim
  have hsize : 9 ≤ threeSlots.slotSize := by decide
  obtain ⟨s₀, hrun₀, h₀⟩ := exists_rest
  obtain ⟨ls, s, hrun, h⟩ := h₀.run hsize (2 ^ 32 - 1)
  obtain ⟨next, hne, hbusy, hland⟩ := runSteps_landed hsize h.armed h.dma h.anotherFree
  have hfree : (s.landed next).anotherFree := by
    have hthird : ∀ a b : Slot threeSlots, ∃ x, x ≠ a ∧ x ≠ b := by decide
    obtain ⟨x, hx, hx'⟩ := hthird next s.stream.current
    refine ⟨x, hx, ?_⟩
    change Function.update s.stream.busy next true x = false
    rw [Function.update_of_ne hx, h.free x hx']
  obtain ⟨next', -, -, hland'⟩ := @runSteps_landed _ (s.landed next) hsize h.armed rfl hfree
  have htail : s.stream.tail = UInt32.ofNat (2 ^ 32 - 1) := by rw [h.inv.tail, h.taken]
  have hhead : s.stream.head = UInt32.ofNat (2 ^ 32 - 1) := by rw [h.inv.head, h.captured]
  have hsome : ((s.landed next).landed next').stream.tail ≠
      ((s.landed next).landed next').stream.head := by
    change s.stream.tail ≠ s.stream.head + 1 + 1
    rw [htail, hhead]
    decide
  have htake := @runSteps_takeTail _ ((s.landed next).landed next') h.idle hsome
  have hslot : ((s.landed next).landed next').stream.tailSlot = next := by
    change ((s.stream.queue.set (s.stream.head.toNat % 3) s.stream.current).set
      ((s.stream.head + 1).toNat % 3) next).getD (s.stream.tail.toNat % 3) default = next
    have hlen : s.stream.queue.length = 3 := h.inv.queue_length
    rw [htail, hhead]
    change ((s.stream.queue.set 0 s.stream.current).set 0 next).getD 0 default = next
    rw [List.getD_eq_getElem?_getD, List.getElem?_set_self (by rw [List.length_set, hlen]; decide)]
    rfl
  have hwhole : runSteps step (start fun _ => []) ([.endFrame 0 0] ++ (ls ++
      ([.dma smallFrame, .endFrame 9 4] ++ ([.dma smallFrame, .endFrame 9 4] ++ takeTail)))) =
        some ((s.landed next).landed next').tookTail := by
    simp only [runSteps_append, hrun₀, hrun, hland, hland', htake, Option.bind_some]
  -- the frame that was taken has the slot of the second, the frame that was queued that of the first
  have hlen : s.captured.length = s.taken.length := by rw [h.captured, h.taken]
  have hfirst := congrArg (fun l => l[s.taken.length]?) (hclaim threeSlots _ _ _ hwhole).taken
  change (s.taken ++ [Frame.mk (streamSlotPtr _) _])[s.taken.length]? =
    (((s.captured ++ [_] ++ [_]).take (s.taken ++ [_]).length).map Captured.frame)[_]? at hfirst
  rw [hslot, List.getElem?_concat_length, List.getElem?_map, List.getElem?_take_of_lt (by simp),
    List.append_assoc, List.getElem?_append_right hlen.le, hlen, Nat.sub_self] at hfirst
  have hptr := congrArg Frame.data (Option.some.inj hfirst)
  exact hne (streamSlotPtr_inj hptr)

end System
end BekenCam.Camera
