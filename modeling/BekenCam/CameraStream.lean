import BekenCam.CameraModel

/-!
# Who owns a slot

The captured frames from the first not yet taken on are in the queue, and of the earlier ones the
consumer has those in `held`. Each of these frames has a busy slot of its own, which is not the
current one, so that the DMA and the interrupt leave it alone.
-/
namespace BekenCam.Camera

variable {c : StreamConfig}

def Captured.frame (f : Captured c) : Frame := ⟨streamSlotPtr f.slot, f.size⟩

namespace Stream

variable {s : Stream c}

theorem mem_candidates {slot : Slot c} : slot ∈ s.candidates ↔ slot ≠ s.current := by
  have hcur := s.current.isLt
  have hslot := slot.isLt
  simp only [candidates, List.mem_map, List.mem_range'_1]
  constructor
  · rintro ⟨i, hi, rfl⟩ heq
    have hval : (s.current + i) % c.slotCount = s.current := congrArg Fin.val heq
    have hne : (s.current.val + 0) % c.slotCount ≠ (s.current.val + i) % c.slotCount :=
      mod_ne_of_lt (by omega) (by omega)
    rw [Nat.add_zero, hval, Nat.mod_eq_of_lt hcur] at hne
    exact hne rfl
  · intro hne
    have hval : slot.val ≠ s.current.val := fun heq => hne (Fin.ext heq)
    rcases Nat.lt_or_gt_of_ne hval with hlt | hgt
    · refine ⟨slot + c.slotCount - s.current, by omega, Fin.ext ?_⟩
      have hsum : s.current.val + (slot + c.slotCount - s.current) = slot + c.slotCount := by omega
      simp only [hsum, Nat.add_mod_right, Nat.mod_eq_of_lt hslot]
    · refine ⟨slot - s.current, by omega, Fin.ext ?_⟩
      have hsum : s.current.val + (slot - s.current) = slot := by omega
      simp only [hsum, Nat.mod_eq_of_lt hslot]

/-- The search finds another slot if one is free. -/
theorem nextFree_eq_none : s.nextFree = none ↔ ∀ slot, slot ≠ s.current → s.busy slot = true := by
  rw [nextFree, List.find?_eq_none]
  simp only [mem_candidates, Bool.not_eq_true, Bool.not_eq_false']

theorem nextFree_eq_some {next : Slot c} (h : s.nextFree = some next) :
    next ≠ s.current ∧ s.busy next = false := by
  have hmem := List.mem_of_find?_eq_some h
  have hfree := List.find?_some h
  exact ⟨mem_candidates.mp hmem, by simpa using hfree⟩

/-- What a frame's end does to an armed stream. -/
theorem onEndFrame_cases (bytes size : UInt32) (harmed : s.armed = true) :
    (∃ next, next ≠ s.current ∧ s.busy next = false ∧ s.whole bytes size = true ∧
      s.onEndFrame bytes size = (s.close next size).arm next) ∨
      (¬(s.whole bytes size = true ∧ ∃ slot, slot ≠ s.current ∧ s.busy slot = false) ∧
        s.onEndFrame bytes size = { s with dropped := s.dropped + 1 }.arm s.current) := by
  simp only [onEndFrame, harmed, Bool.not_true, Bool.false_eq_true, if_false]
  split
  · rename_i next hwhole hnext
    obtain ⟨hne, hfree⟩ := nextFree_eq_some hnext
    exact .inl ⟨next, hne, hfree, hwhole, rfl⟩
  · rename_i hnot
    refine .inr ⟨?_, rfl⟩
    rintro ⟨hwhole, slot, hne, hfree⟩
    cases hnext : s.nextFree with
    | none =>
      rw [nextFree_eq_none.mp hnext slot hne] at hfree
      cases hfree
    | some next => exact hnot next hwhole hnext

theorem releaseFrame_ptr (slot : Slot c) (size : UInt32) :
    s.releaseFrame ⟨streamSlotPtr slot, size⟩ =
      { s with busy := Function.update s.busy slot false } := by
  have hslot : streamSlotPtr slot / c.slotSize = slot := Nat.mul_div_cancel _ c.size_pos
  simp only [releaseFrame, hslot, slot.isLt, dif_pos]

end Stream

/-! ## The invariant -/

namespace System

variable {s t : System c}

/-- The captured frame `k` waits in the queue or is in the consumer's hands. -/
def Live (s : System c) (k : ℕ) : Prop := k ∈ s.held ∨ s.taken.length ≤ k

/-- What `camera_stream_get` has read is right for the first frame not taken. -/
def GetReads (s : System c) : GetPc c → Prop
  | .idle => True
  | .slot => s.taken.length < s.captured.length
  | .frame slot => ∃ f, s.captured[s.taken.length]? = some f ∧ slot = f.slot
  | .advance frame => ∃ f, s.captured[s.taken.length]? = some f ∧ frame = f.frame

/-- A frame that is captured meanwhile changes nothing. -/
theorem GetReads.concat {pc : GetPc c} (h : s.GetReads pc) (f : Captured c) (stream : Stream c) :
    GetReads { s with captured := s.captured ++ [f], stream := stream } pc := by
  cases pc with
  | idle => trivial
  | slot =>
    refine lt_of_lt_of_le h ?_
    rw [List.length_append]
    exact Nat.le_add_right _ _
  | frame slot =>
    obtain ⟨g, hg, hread⟩ := h
    exact ⟨g, List.getElem?_append_left (List.getElem?_eq_some_iff.mp hg).1 ▸ hg, hread⟩
  | advance frame =>
    obtain ⟨g, hg, hread⟩ := h
    exact ⟨g, List.getElem?_append_left (List.getElem?_eq_some_iff.mp hg).1 ▸ hg, hread⟩

/-- The entry of the queue for the `k`-th frame; the cursors wrap. -/
def entry (c : StreamConfig) (k : ℕ) : ℕ := (UInt32.ofNat k).toNat % c.slotCount

theorem entry_lt (k : ℕ) : entry c k < c.slotCount := Nat.mod_lt _ (NeZero.pos c.slotCount)

theorem entry_of_lt {k : ℕ} (h : k < 2 ^ 32) : entry c k = k % c.slotCount := by
  rw [entry, UInt32.toNat_ofNat_of_lt' h]

/-- A frame that ends is put into the queue. -/
def Queues (s : System c) (bytes size : UInt32) : Prop :=
  s.stream.armed = true ∧ s.stream.whole bytes size = true ∧ s.anotherFree

/-- No frame that waits has the entry of the next one. -/
def Room (s : System c) : Prop :=
  ∀ k, s.taken.length ≤ k → k < s.captured.length → entry c k ≠ entry c s.captured.length

structure Inv (s : System c) : Prop where
  queue_length : s.stream.queue.length = c.slotCount
  head : s.stream.head = UInt32.ofNat s.captured.length
  tail : s.stream.tail = UInt32.ofNat s.taken.length
  taken : s.taken = (s.captured.take s.taken.length).map Captured.frame
  queued : ∀ k f, s.taken.length ≤ k → s.captured[k]? = some f →
    s.stream.queue[entry c k]? = some f.slot
  size : ∀ f ∈ s.captured.drop s.taken.length, s.stream.size f.slot = f.size
  held_nodup : s.held.Nodup
  held_lt : ∀ k ∈ s.held, k < s.taken.length
  owned : ∀ k f, s.Live k → s.captured[k]? = some f → f.slot ≠ s.stream.current ∧
    s.stream.busy f.slot = true ∧ s.stream.memory f.slot = f.data
  distinct : ∀ k l f g, s.Live k → s.Live l → s.captured[k]? = some f → s.captured[l]? = some g →
    f.slot = g.slot → k = l
  busy : s.stream.busy s.stream.current = true
  dma : ∀ slot, s.stream.dma = some slot → slot = s.stream.current
  get : s.GetReads s.get
  dropped : s.stream.dropped = UInt32.ofNat s.others

theorem inv_start (memory : Slot c → List UInt8) : (start memory).Inv where
  queue_length := List.length_replicate
  head := rfl
  tail := rfl
  taken := rfl
  queued k f _ hf := by simp [start] at hf
  size := nofun
  held_nodup := List.nodup_nil
  held_lt := nofun
  owned k f _ hf := by simp [start] at hf
  distinct k l f g _ _ hf := by simp [start] at hf
  busy := by simp [start, Stream.started]
  dma := nofun
  get := trivial
  dropped := rfl

namespace Inv

theorem taken_le (h : s.Inv) : s.taken.length ≤ s.captured.length := by
  have hlen := congrArg List.length h.taken
  rw [List.length_map, List.length_take] at hlen
  omega

/-- The frames in the queue have slots of their own, none of which is the current one. -/
theorem pending_lt (h : s.Inv) : s.captured.length - s.taken.length < c.slotCount := by
  have hget : ∀ i (hi : i < (s.captured.drop s.taken.length).length),
      s.captured[s.taken.length + i]? = some (s.captured.drop s.taken.length)[i] := by
    intro i hi
    rw [List.getElem_drop]
    exact List.getElem?_eq_getElem _
  have hlive : ∀ i, s.Live (s.taken.length + i) := fun i => .inr (Nat.le_add_right _ _)
  have hnodup : (s.stream.current :: (s.captured.drop s.taken.length).map Captured.slot).Nodup := by
    rw [List.nodup_cons]
    constructor
    · intro hmem
      obtain ⟨f, hf, hslot⟩ := List.mem_map.mp hmem
      obtain ⟨i, hi, rfl⟩ := List.getElem_of_mem hf
      exact (h.owned _ _ (hlive i) (hget i hi)).1 hslot
    · rw [List.nodup_iff_injective_get]
      intro i j hij
      have hi := lt_of_lt_of_eq i.isLt (List.length_map _)
      have hj := lt_of_lt_of_eq j.isLt (List.length_map _)
      simp only [List.get_eq_getElem, List.getElem_map] at hij
      have heq := h.distinct _ _ _ _ (hlive i) (hlive j) (hget i hi) (hget j hj) hij
      exact Fin.ext (by omega)
  have hcard := hnodup.length_le_card
  rw [Fintype.card_fin, List.length_cons, List.length_map, List.length_drop] at hcard
  omega

/-- The DMA stores into the current slot, which no live frame has. -/
theorem dmaStore (h : s.Inv) (content : List UInt8)
    (hstep : s.step (.dma content) = some t) : t.Inv := by
  obtain ⟨slot, hslot, rfl⟩ := Option.map_eq_some_iff.mp hstep
  refine { h with owned := fun k f hk hf => ?_ }
  obtain ⟨hne, hbusy, hdata⟩ := h.owned k f hk hf
  refine ⟨hne, hbusy, ?_⟩
  rw [h.dma slot hslot]
  exact (Function.update_of_ne hne ..).trans hdata

/-- The frames captured with one more: the old ones, and the new one at the end. -/
theorem getElem?_concat {α : Type*} {l : List α} {x y : α} {k : ℕ} (h : (l ++ [x])[k]? = some y) :
    l[k]? = some y ∨ k = l.length ∧ y = x := by
  rcases Nat.lt_or_ge k l.length with hk | hk
  · rw [List.getElem?_append_left hk] at h
    exact .inl h
  · rw [List.getElem?_append_right hk, List.getElem?_singleton] at h
    split_ifs at h with hzero
    exact .inr ⟨by omega, (Option.some.inj h).symm⟩

/-- Before the cursors wrap there is room. -/
theorem room_of_lt (h : s.Inv) (hfew : s.captured.length < 2 ^ 32) : s.Room := by
  intro k hle hlt
  have hpending := h.pending_lt
  rw [entry_of_lt (by omega), entry_of_lt hfew]
  have hne := mod_ne_of_lt (o := 0) hlt (show s.captured.length < k + c.slotCount by omega)
  rwa [Nat.zero_add, Nat.zero_add] at hne

/-- A captured frame leaves its slot busy; the DMA goes on in a slot that was free. -/
theorem capture (h : s.Inv) (hroom : s.Room) {next : Slot c} {size : UInt32}
    (hne : next ≠ s.stream.current) (hfree : s.stream.busy next = false) :
    ({ s with
      captured := s.captured ++ [s.stream.ending size]
      stream := (s.stream.close next size).arm next } : System c).Inv := by
  have hle := h.taken_le
  have hdrop : (s.captured ++ [s.stream.ending size]).drop s.taken.length =
      s.captured.drop s.taken.length ++ [s.stream.ending size] :=
    List.drop_append_of_le_length hle
  have hslot : ∀ {k f}, s.Live k → s.captured[k]? = some f →
      f.slot ≠ s.stream.current ∧ f.slot ≠ next := by
    intro k f hk hf
    obtain ⟨hcur, hbusy, -⟩ := h.owned k f hk hf
    refine ⟨hcur, ?_⟩
    rintro rfl
    rw [hbusy] at hfree
    cases hfree
  refine ⟨?_, ?_, h.tail, ?_, ?_, ?_, h.held_nodup, h.held_lt, ?_, ?_, ?_, ?_, ?_, h.dropped⟩
  · exact List.length_set.trans h.queue_length
  · rw [List.length_append, List.length_singleton, UInt32.ofNat_add, ← h.head]
    rfl
  · rw [List.take_append_of_le_length hle]
    exact h.taken
  · intro k f hk hf
    have hhead : s.stream.head.toNat % c.slotCount = entry c s.captured.length := by
      rw [h.head, entry]
    change (s.stream.queue.set (s.stream.head.toNat % c.slotCount) s.stream.current)[entry c k]? = _
    rw [hhead]
    rcases getElem?_concat hf with hf | ⟨rfl, rfl⟩
    · rw [List.getElem?_set_ne (hroom k hk (List.getElem?_eq_some_iff.mp hf).1).symm]
      exact h.queued k f hk hf
    · rw [List.getElem?_set_self (by rw [h.queue_length]; exact entry_lt _)]
      rfl
  · intro f hf
    change Function.update s.stream.size s.stream.current size f.slot = f.size
    rw [hdrop] at hf
    rcases List.mem_append.mp hf with hf | hf
    · obtain ⟨k, hk⟩ := List.mem_iff_getElem?.mp hf
      rw [List.getElem?_drop] at hk
      rw [Function.update_of_ne (hslot (.inr (Nat.le_add_right _ _)) hk).1]
      exact h.size f hf
    · obtain rfl := List.mem_singleton.mp hf
      exact Function.update_self ..
  · intro k f hk hf
    change f.slot ≠ next ∧ Function.update s.stream.busy next true f.slot = true ∧
      s.stream.memory f.slot = f.data
    rcases getElem?_concat hf with hf | ⟨-, rfl⟩
    · obtain ⟨-, hbusy, hdata⟩ := h.owned k f hk hf
      rw [Function.update_of_ne (hslot hk hf).2]
      exact ⟨(hslot hk hf).2, hbusy, hdata⟩
    · exact ⟨Ne.symm hne, (Function.update_of_ne (Ne.symm hne) ..).trans h.busy, rfl⟩
  · intro k l f g hk hl hf hg hfg
    rcases getElem?_concat hf with hf | ⟨rfl, rfl⟩ <;> rcases getElem?_concat hg with hg | ⟨rfl, rfl⟩
    · exact h.distinct k l f g hk hl hf hg hfg
    · exact absurd hfg (hslot hk hf).1
    · exact absurd hfg.symm (hslot hl hg).1
    · rfl
  · exact Function.update_self ..
  · intro slot hdma
    exact (Option.some.inj hdma).symm
  · exact h.get.concat _ _

theorem endFrame (h : s.Inv) {bytes size : UInt32} (hstep : s.step (.endFrame bytes size) = some t)
    (hroom : s.Queues bytes size → s.Room) : t.Inv := by
  obtain rfl := Option.some.inj hstep
  cases harmed : s.stream.armed with
  | false =>
    have hrecord : s.record bytes size = s := by simp [record, harmed]
    have hend : s.stream.onEndFrame bytes size =
        { s.stream with armed := true, dma := some s.stream.current } := by
      simp [Stream.onEndFrame, Stream.arm, harmed]
    rw [hrecord, hend]
    exact { h with dma := fun slot hdma => (Option.some.inj hdma).symm }
  | true =>
    rcases s.stream.onEndFrame_cases bytes size harmed with
      ⟨next, hne, hfree, hwhole, hend⟩ | ⟨hnot, hend⟩
    · have hrecord : s.record bytes size =
          { s with captured := s.captured ++ [s.stream.ending size] } := by
        have hfound : s.stream.whole bytes size = true ∧ s.anotherFree := ⟨hwhole, next, hne, hfree⟩
        simp only [record, harmed, Bool.not_true, Bool.false_eq_true, if_false, if_pos hfound]
      rw [hrecord, hend]
      exact h.capture (hroom ⟨harmed, hwhole, next, hne, hfree⟩) hne hfree
    · have hrecord : s.record bytes size = { s with others := s.others + 1 } := by
        simp only [record, harmed, Bool.not_true, Bool.false_eq_true, if_false]
        exact if_neg hnot
      rw [hrecord, hend]
      refine { h with
        dma := fun slot hdma => (Option.some.inj hdma).symm
        dropped := ?_ }
      change s.stream.dropped + 1 = UInt32.ofNat (s.others + 1)
      rw [h.dropped, UInt32.ofNat_add]
      rfl

/-- With frames in the queue its tail is the first frame not taken. -/
theorem tailSlot (h : s.Inv) (hlt : s.taken.length < s.captured.length) :
    ∃ f, s.captured[s.taken.length]? = some f ∧ s.stream.tailSlot = f.slot := by
  have htail : s.stream.tail.toNat % c.slotCount = entry c s.taken.length := by
    rw [h.tail, entry]
  have hf := List.getElem?_eq_getElem hlt
  refine ⟨_, hf, ?_⟩
  rw [Stream.tailSlot, htail, List.getD_eq_getElem?_getD, h.queued _ _ (Nat.le_refl _) hf]
  rfl

theorem getStart (h : s.Inv) (hstep : s.step .get = some t) : t.Inv := by
  simp only [step] at hstep
  split at hstep
  · obtain rfl := Option.some.inj hstep
    split_ifs with hnone
    · exact h
    · refine { h with get := ?_ }
      refine lt_of_le_of_ne h.taken_le fun heq => hnone ?_
      rw [h.tail, h.head, heq]
  · cases hstep

/-- A frame that was read is taken. -/
theorem advance (h : s.Inv) {f : Captured c} (hf : s.captured[s.taken.length]? = some f) :
    ({ s with
      stream := { s.stream with tail := s.stream.tail + 1 }
      get := .idle
      taken := s.taken ++ [f.frame]
      held := s.held ++ [s.taken.length] } : System c).Inv := by
  obtain ⟨hlt, rfl⟩ := List.getElem?_eq_some_iff.mp hf
  have hlen : (s.taken ++ [s.captured[s.taken.length].frame]).length = s.taken.length + 1 := by
    rw [List.length_append, List.length_singleton]
  have hlive : ∀ k, (k ∈ s.held ++ [s.taken.length] ∨
      (s.taken ++ [s.captured[s.taken.length].frame]).length ≤ k) → s.Live k := by
    intro k hk
    rw [hlen, List.mem_append, List.mem_singleton] at hk
    rcases hk with (hk | rfl) | hk
    · exact .inl hk
    · exact .inr (Nat.le_refl _)
    · exact .inr (by omega)
  refine ⟨h.queue_length, h.head, ?_, ?_, ?_, ?_, ?_, ?_, fun k f hk => h.owned k f (hlive k hk),
    fun k l f g hk hl => h.distinct k l f g (hlive k hk) (hlive l hl), h.busy, h.dma, trivial,
    h.dropped⟩
  · change s.stream.tail + 1 = UInt32.ofNat (s.taken ++ [_]).length
    rw [hlen, UInt32.ofNat_add, h.tail]
    rfl
  · change s.taken ++ [_] = (s.captured.take (s.taken ++ [_]).length).map Captured.frame
    rw [hlen, List.take_succ_eq_append_getElem hlt, List.map_append, ← h.taken]
    rfl
  · intro k g hk hg
    rw [hlen] at hk
    exact h.queued k g (by omega) hg
  · intro g hg
    refine h.size g ?_
    rw [List.drop_eq_getElem_cons hlt]
    rw [hlen] at hg
    exact List.mem_cons_of_mem _ hg
  · refine List.nodup_append.mpr ⟨h.held_nodup, List.nodup_singleton _, fun k hk l hl => ?_⟩
    rw [List.mem_singleton.mp hl]
    exact (h.held_lt k hk).ne
  · intro k hk
    rw [hlen]
    rcases List.mem_append.mp hk with hk | hk
    · exact Nat.lt_succ_of_lt (h.held_lt k hk)
    · rw [List.mem_singleton.mp hk]
      exact Nat.lt_succ_self _

theorem getStep (h : s.Inv) (hstep : s.step .getStep = some t) : t.Inv := by
  have hget := h.get
  simp only [step] at hstep
  cases hpc : s.get with
  | idle =>
    rw [hpc] at hstep
    cases hstep
  | slot =>
    rw [hpc] at hget hstep
    obtain rfl := Option.some.inj hstep
    exact { h with get := h.tailSlot hget }
  | frame slot =>
    rw [hpc] at hget hstep
    obtain rfl := Option.some.inj hstep
    obtain ⟨f, hf, rfl⟩ := hget
    obtain ⟨hlt, rfl⟩ := List.getElem?_eq_some_iff.mp hf
    refine { h with get := ⟨_, hf, ?_⟩ }
    have hsize := h.size s.captured[s.taken.length] (by
      rw [List.drop_eq_getElem_cons hlt]
      exact List.mem_cons_self)
    rw [hsize]
    rfl
  | advance frame =>
    rw [hpc] at hget hstep
    obtain rfl := Option.some.inj hstep
    obtain ⟨f, hf, rfl⟩ := hget
    exact h.advance hf

/-- A frame in the consumer's hands. -/
theorem captured_of_taken (h : s.Inv) {k : ℕ} {frame : Frame} (hk : s.taken[k]? = some frame) :
    ∃ f, s.captured[k]? = some f ∧ frame = f.frame := by
  rw [h.taken, List.getElem?_map, Option.map_eq_some_iff] at hk
  obtain ⟨f, hf, rfl⟩ := hk
  obtain ⟨hlt, -⟩ := List.getElem?_eq_some_iff.mp hf
  rw [List.length_take] at hlt
  rw [List.getElem?_take_of_lt (by omega)] at hf
  exact ⟨f, hf, rfl⟩

/-- Giving back a frame frees the slot of that frame only. -/
theorem release (h : s.Inv) {k : ℕ} (hstep : s.step (.release k) = some t) : t.Inv := by
  simp only [step] at hstep
  split at hstep
  · rename_i frame hidle htaken
    split_ifs at hstep with hheld
    obtain rfl := Option.some.inj hstep
    obtain ⟨f, hf, rfl⟩ := h.captured_of_taken htaken
    have hlive : ∀ l, (l ∈ s.held.erase k ∨ s.taken.length ≤ l) → s.Live l ∧ l ≠ k := by
      intro l hl
      rcases hl with hl | hl
      · exact ⟨.inl (List.mem_of_mem_erase hl), (h.held_nodup.mem_erase_iff.mp hl).1⟩
      · have hlt := h.held_lt k hheld
        exact ⟨.inr hl, by omega⟩
    rw [Captured.frame, Stream.releaseFrame_ptr]
    refine { h with
      held_nodup := h.held_nodup.erase k
      held_lt := fun l hl => h.held_lt l (List.mem_of_mem_erase hl)
      owned := fun l g hl hg => ?_
      distinct := fun l m g g' hl hm => h.distinct l m g g' (hlive l hl).1 (hlive m hm).1
      busy := ?_
      get := by
        rw [hidle]
        trivial }
    · obtain ⟨hne, hbusy, hdata⟩ := h.owned l g (hlive l hl).1 hg
      have hother : g.slot ≠ f.slot := fun heq =>
        (hlive l hl).2 (h.distinct l k g f (hlive l hl).1 (.inl hheld) hg hf heq)
      exact ⟨hne, (Function.update_of_ne hother ..).trans hbusy, hdata⟩
    · have hne := (h.owned k f (.inl hheld) hf).1
      exact (Function.update_of_ne (Ne.symm hne) ..).trans h.busy
  · cases hstep

end Inv

/-- Only the end of a frame captures one. -/
theorem captured_le {l : Label} (hstep : s.step l = some t) :
    s.captured.length ≤ t.captured.length := by
  cases l with
  | dma content =>
    obtain ⟨slot, -, rfl⟩ := Option.map_eq_some_iff.mp hstep
    exact Nat.le_refl _
  | endFrame bytes size =>
    obtain rfl := Option.some.inj hstep
    simp only [record]
    split_ifs
    · exact Nat.le_refl _
    · rw [List.length_append]
      exact Nat.le_add_right _ _
    · exact Nat.le_refl _
  | get =>
    simp only [step] at hstep
    split at hstep
    · obtain rfl := Option.some.inj hstep
      split_ifs <;> exact Nat.le_refl _
    · cases hstep
  | getStep =>
    simp only [step] at hstep
    cases hpc : s.get <;> rw [hpc] at hstep
    · cases hstep
    all_goals
      obtain rfl := Option.some.inj hstep
      exact Nat.le_refl _
  | release k =>
    simp only [step] at hstep
    split at hstep
    · split_ifs at hstep
      obtain rfl := Option.some.inj hstep
      exact Nat.le_refl _
    · cases hstep

/-- A frame is not put where another waits. -/
def Fits (s : System c) : Label → Prop
  | .endFrame bytes size => s.Queues bytes size → s.Room
  | _ => True

theorem Inv.step (h : s.Inv) {l : Label} (hfits : s.Fits l) (hstep : s.step l = some t) :
    t.Inv := by
  cases l with
  | dma content => exact h.dmaStore content hstep
  | endFrame bytes size => exact h.endFrame hstep hfits
  | get => exact h.getStart hstep
  | getStep => exact h.getStep hstep
  | release k => exact h.release hstep

theorem Inv.fits (h : s.Inv) (hfew : s.captured.length < 2 ^ 32) (l : Label) : s.Fits l := by
  cases l with
  | endFrame bytes size => exact fun _ => h.room_of_lt hfew
  | dma | get | getStep | release => trivial

theorem Inv.run {ls : List Label} (h : s.Inv) (hrun : runSteps System.step s ls = some t)
    (hfew : t.captured.length < 2 ^ 32) : t.Inv := by
  have hpass : ∀ (s : System c) (l : Label) (t : System c),
      (s.captured.length < 2 ^ 32 → s.Inv) → s.step l = some t →
        t.captured.length < 2 ^ 32 → t.Inv := by
    intro s l t hinv hstep hfew
    have hbefore := lt_of_le_of_lt (captured_le hstep) hfew
    exact (hinv hbefore).step ((hinv hbefore).fits hbefore l) hstep
  exact invariant_of_steps hpass (fun _ => h) hrun hfew

/-! ## Every run -/

/-- The slots in the queue. -/
def queued (s : System c) : List (Slot c) :=
  window s.stream.queue s.stream.tail.toNat (s.stream.head - s.stream.tail).toNat

/-- The frames in the consumer's hands. -/
def inHands (s : System c) : List Frame := s.held.filterMap fun k => s.taken[k]?

structure Sound (s : System c) : Prop where
  armed : ∀ slot, s.stream.dma = some slot →
    slot ∉ s.queued ∧ ∀ frame ∈ s.inHands, frame.data ≠ streamSlotPtr slot
  apart : (streamSlotPtr s.stream.current ::
    (s.queued.map streamSlotPtr ++ s.inHands.map Frame.data)).Nodup
  busy : s.stream.busy s.stream.current = true ∧
    (∀ slot ∈ s.queued, s.stream.busy slot = true) ∧
    ∀ frame ∈ s.inHands, ∃ slot, frame.data = streamSlotPtr slot ∧ s.stream.busy slot = true
  delivered : s.captured.map Captured.frame =
    s.taken ++ s.queued.map fun slot => ⟨streamSlotPtr slot, s.stream.size slot⟩
  intact : ∀ k f, k ∈ s.held ∨ s.taken.length ≤ k → s.captured[k]? = some f →
    s.stream.memory f.slot = f.data
  dropped : s.stream.dropped.toNat = s.others % 2 ^ 32

theorem filterMap_getElem?_range' {α : Type*} (l : List α) (k : ℕ) :
    (List.range' k (l.length - k)).filterMap (fun i => l[i]?) = l.drop k := by
  induction hn : l.length - k generalizing k with
  | zero => simp [List.drop_eq_nil_of_le (show l.length ≤ k by omega)]
  | succ n ih =>
    have hlt : k < l.length := by omega
    rw [List.range'_succ, List.filterMap_cons_some (List.getElem?_eq_getElem hlt),
      ih (k + 1) (by omega), List.drop_eq_getElem_cons hlt]

theorem streamSlotPtr_inj {slot slot' : Slot c} (h : streamSlotPtr slot = streamSlotPtr slot') :
    slot = slot' :=
  Fin.ext (Nat.eq_of_mul_eq_mul_right c.size_pos h)

section Sound

variable (h : s.Inv) (hfew : s.captured.length < 2 ^ 32)

include h hfew

theorem Inv.queued_eq : s.queued = (s.captured.drop s.taken.length).map Captured.slot := by
  have hle := h.taken_le
  have hhead : s.stream.head.toNat = s.captured.length := by
    rw [h.head]
    exact Nat.mod_eq_of_lt (by omega)
  have htail : s.stream.tail.toNat = s.taken.length := by
    rw [h.tail]
    exact Nat.mod_eq_of_lt (by omega)
  have hcount : (s.stream.head - s.stream.tail).toNat = s.captured.length - s.taken.length := by
    rw [UInt32.toNat_sub_of_le _ _ (UInt32.le_iff_toNat_le.mpr (by omega)), hhead, htail]
  rw [System.queued, htail, hcount]
  refine List.ext_getElem (by simp) fun i hi hi' => ?_
  rw [length_window] at hi
  have hf : s.captured[s.taken.length + i]? = some s.captured[s.taken.length + i] :=
    List.getElem?_eq_getElem (by omega)
  have hentry := h.queued _ _ (Nat.le_add_right _ _) hf
  rw [entry_of_lt (by omega)] at hentry
  simp [window, h.queue_length, hentry]

omit hfew in
theorem Inv.mem_inHands {frame : Frame} (hframe : frame ∈ s.inHands) :
    ∃ k f, k ∈ s.held ∧ s.captured[k]? = some f ∧ frame = f.frame := by
  obtain ⟨k, hk, htaken⟩ := List.mem_filterMap.mp hframe
  obtain ⟨f, hf, hframe⟩ := h.captured_of_taken htaken
  exact ⟨k, f, hk, hf, hframe⟩

theorem Inv.mem_queued {slot : Slot c} (hslot : slot ∈ s.queued) :
    ∃ k f, s.taken.length ≤ k ∧ s.captured[k]? = some f ∧ slot = f.slot := by
  rw [h.queued_eq hfew] at hslot
  obtain ⟨f, hf, rfl⟩ := List.mem_map.mp hslot
  obtain ⟨i, hi⟩ := List.mem_iff_getElem?.mp hf
  rw [List.getElem?_drop] at hi
  exact ⟨_, f, Nat.le_add_right _ _, hi, rfl⟩

/-- The pointers of the live frames, one by one. -/
theorem Inv.pointers_eq : s.queued.map streamSlotPtr ++ s.inHands.map Frame.data =
    (List.range' s.taken.length (s.captured.length - s.taken.length) ++ s.held).filterMap
      fun k => s.captured[k]?.map fun f => streamSlotPtr f.slot := by
  have hhands : s.inHands.map Frame.data =
      s.held.filterMap fun k => s.captured[k]?.map fun f => streamSlotPtr f.slot := by
    rw [inHands, List.map_filterMap]
    refine List.filterMap_congr fun k hk => ?_
    have hlt := h.held_lt k hk
    obtain ⟨f, hf, heq⟩ := h.captured_of_taken (List.getElem?_eq_getElem hlt)
    rw [List.getElem?_eq_getElem hlt, hf, heq]
    rfl
  rw [List.filterMap_append, hhands, h.queued_eq hfew, ← filterMap_getElem?_range',
    List.map_filterMap, List.map_filterMap]
  simp only [Option.map_map, Function.comp_def]

theorem Inv.apart : (streamSlotPtr s.stream.current ::
    (s.queued.map streamSlotPtr ++ s.inHands.map Frame.data)).Nodup := by
  have hlive : ∀ k ∈ List.range' s.taken.length (s.captured.length - s.taken.length) ++ s.held,
      s.Live k := by
    intro k hk
    rcases List.mem_append.mp hk with hk | hk
    · exact .inr (List.mem_range'_1.mp hk).1
    · exact .inl hk
  have hnodup : (List.range' s.taken.length (s.captured.length - s.taken.length) ++
      s.held).Nodup := by
    refine List.nodup_append.mpr ⟨List.nodup_range', h.held_nodup, fun k hk l hl => ?_⟩
    have hge := (List.mem_range'_1.mp hk).1
    have hlt := h.held_lt l hl
    omega
  rw [h.pointers_eq hfew, List.nodup_cons]
  constructor
  · intro hmem
    obtain ⟨k, hk, hptr⟩ := List.mem_filterMap.mp hmem
    obtain ⟨f, hf, heq⟩ := Option.map_eq_some_iff.mp hptr
    exact (h.owned k f (hlive k hk) hf).1 (streamSlotPtr_inj heq)
  · rw [List.Nodup, List.pairwise_filterMap]
    refine List.Pairwise.imp_of_mem ?_ hnodup
    intro k l hk hl hne p hp q hq hpq
    obtain ⟨f, hf, rfl⟩ := Option.map_eq_some_iff.mp hp
    obtain ⟨g, hg, rfl⟩ := Option.map_eq_some_iff.mp hq
    exact hne (h.distinct k l f g (hlive k hk) (hlive l hl) hf hg (streamSlotPtr_inj hpq))

theorem Inv.sound : s.Sound where
  armed slot hdma := by
    obtain rfl := h.dma slot hdma
    refine ⟨fun hslot => ?_, fun frame hframe hptr => ?_⟩
    · obtain ⟨k, f, hk, hf, heq⟩ := h.mem_queued hfew hslot
      exact (h.owned k f (.inr hk) hf).1 heq.symm
    · obtain ⟨k, f, hk, hf, rfl⟩ := h.mem_inHands hframe
      exact (h.owned k f (.inl hk) hf).1 (streamSlotPtr_inj hptr)
  apart := h.apart hfew
  busy := by
    refine ⟨h.busy, fun slot hslot => ?_, fun frame hframe => ?_⟩
    · obtain ⟨k, f, hk, hf, rfl⟩ := h.mem_queued hfew hslot
      exact (h.owned k f (.inr hk) hf).2.1
    · obtain ⟨k, f, hk, hf, rfl⟩ := h.mem_inHands hframe
      exact ⟨f.slot, rfl, (h.owned k f (.inl hk) hf).2.1⟩
  delivered := by
    have hrest : (s.captured.drop s.taken.length).map Captured.frame =
        s.queued.map fun slot => ⟨streamSlotPtr slot, s.stream.size slot⟩ := by
      rw [h.queued_eq hfew, List.map_map]
      refine List.map_congr_left fun f hf => ?_
      rw [Function.comp_apply, h.size f hf]
      rfl
    have hsplit : s.captured.map Captured.frame =
        (s.captured.take s.taken.length).map Captured.frame ++
          (s.captured.drop s.taken.length).map Captured.frame := by
      rw [← List.map_append, List.take_append_drop]
    rw [hsplit, ← h.taken, hrest]
  intact k f hk hf := (h.owned k f hk hf).2.2
  dropped := by
    rw [h.dropped]
    rfl

end Sound

/-- Slots change hands soundly in every run that queues fewer than `2 ^ 32` frames. -/
theorem camera_stream_sound (memory : Slot c → List UInt8) (ls : List Label) (s : System c)
    (hrun : runSteps step (start memory) ls = some s) (hfew : s.captured.length < 2 ^ 32) :
    s.Sound :=
  ((inv_start memory).run hrun hfew).sound hfew

/-- Two slots of twelve bytes. -/
def twoSlots : StreamConfig := ⟨12, 2, by decide, by decide, by decide⟩

/-- A frame of four bytes with its trailer. -/
def smallFrame : List UInt8 := [0xFF, 0xD8, 0xFF, 0xD9, 0, 4, 0, 0, 0]

/-- A frame is captured. While it is taken a damaged one ends, and while it is held one that finds
no other slot; that one is whole still when the held one is back. -/
def takeOne : List Label :=
  [.endFrame 0 0, .dma smallFrame, .endFrame 9 4, .get, .getStep, .dma [], .endFrame 3 3, .getStep,
    .getStep, .dma smallFrame, .endFrame 9 4, .release 0, .endFrame 9 4]

theorem camera_stream_sound_takeOne : ∃ s : System twoSlots,
    runSteps step (start fun _ => []) takeOne = some s ∧ s.Sound ∧ s.taken = [⟨0, 4⟩] ∧
      s.queued.map streamSlotPtr = [12] ∧ s.stream.dropped = 2 := by
  have hend : (runSteps step (start fun _ : Slot twoSlots => []) takeOne).map (fun s =>
      (s.captured.length, s.taken, s.queued.map streamSlotPtr, s.stream.dropped)) =
      some (2, [⟨0, 4⟩], [12], 2) := by decide +kernel
  obtain ⟨s, hs, heq⟩ := Option.map_eq_some_iff.mp hend
  simp only [Prod.mk.injEq] at heq
  obtain ⟨hlen, htaken, hqueued, hdropped⟩ := heq
  exact ⟨s, hs, camera_stream_sound _ takeOne s hs (by omega), htaken, hqueued, hdropped⟩

/-! ## The count of dropped frames -/

theorem step_damaged {s : System c} (harmed : s.stream.armed = true) :
    ∃ t, step s (.endFrame 0 0) = some t ∧ t.stream.armed = true ∧
      t.stream.dropped = s.stream.dropped + 1 ∧ t.others = s.others + 1 ∧
      t.captured = s.captured := by
  have hwhole : s.stream.whole 0 0 = false := rfl
  refine ⟨_, rfl, ?_⟩
  simp [record, Stream.onEndFrame, Stream.arm, harmed, hwhole]

/-- Frames without a byte are dropped one by one. -/
theorem runSteps_damaged {s : System c} (harmed : s.stream.armed = true) (k : ℕ) :
    ∃ t, runSteps step s (List.replicate k (.endFrame 0 0)) = some t ∧
      t.stream.dropped = s.stream.dropped + UInt32.ofNat k ∧ t.others = s.others + k ∧
      t.captured = s.captured := by
  induction k generalizing s with
  | zero => exact ⟨s, rfl, by simp, rfl, rfl⟩
  | succ k ih =>
    obtain ⟨s₁, hstep, harmed₁, hdropped₁, hothers₁, hcaptured₁⟩ := step_damaged harmed
    obtain ⟨t, hrun, hdropped, hothers, hcaptured⟩ := ih harmed₁
    refine ⟨t, ?_, ?_, by omega, hcaptured.trans hcaptured₁⟩
    · rw [List.replicate_succ, runSteps, hstep]
      exact hrun
    · rw [hdropped, hdropped₁, UInt32.ofNat_add]
      grind

/-- The count is a word: `2 ^ 32` dropped frames leave it at zero. -/
theorem camera_stream_dropped_wraps : ¬ ∀ (c : StreamConfig) (memory : Slot c → List UInt8)
    (ls : List Label) (s : System c), runSteps step (start memory) ls = some s →
    s.captured.length < 2 ^ 32 → s.Sound ∧ s.stream.dropped.toNat = s.others := by
  intro hclaim
  obtain ⟨s, hstep, harmed, hdropped, hothers, hcaptured⟩ :
      ∃ s, step (start fun _ : Slot twoSlots => []) (.endFrame 0 0) = some s ∧
        s.stream.armed = true ∧ s.stream.dropped = 0 ∧ s.others = 0 ∧ s.captured = [] :=
    ⟨_, rfl, rfl, rfl, rfl, rfl⟩
  obtain ⟨t, hrun, hdropped', hothers', hcaptured'⟩ := runSteps_damaged harmed (2 ^ 32)
  have hcons : ∀ ls, runSteps step (start fun _ : Slot twoSlots => []) (.endFrame 0 0 :: ls) =
      runSteps step s ls := by
    intro ls
    rw [runSteps, hstep, Option.bind_some]
  have hcount := (hclaim twoSlots _ _ t ((hcons _).trans hrun)
    (by rw [hcaptured', hcaptured]; decide)).2
  rw [hdropped', hdropped, hothers', hothers] at hcount
  exact absurd hcount (by decide)

end System
end BekenCam.Camera
