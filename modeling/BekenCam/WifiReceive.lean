import BekenCam.ByteBuffer
import BekenCam.StepRuns
import BekenCam.WifiIface

/-!
# Receiving frames

The archive asks for a buffer, fills it and hands it over. A buffer out of the stack's memory then
belongs to the stack, or is freed; the spare one stays here, and what it holds is lost. The archive
is known by what it may do with the buffers it was given.
-/
namespace BekenCam.WifiRx

open WifiNet

def ethHdrLen : ℕ := 14
def rxSpareLen : ℕ := 2300

structure Stat where
  rxFrames : UInt32
  rxDropped : UInt32

/-- A frame that was passed on, and what the interfaces were like then. -/
structure Frame where
  vifIdx : UInt8
  iface : IfaceId
  bytes : List UInt8
  table : Table
  linkUp : IfaceId → Bool

/-- The buffers are numbered. `mem` is what they hold, `held` the archive has, `mailbox` the stack's
thread has not looked at yet. The lists of frames and the numbers behind them are there for what is
said about the rest. -/
structure State where
  table : Table
  linkUp : IfaceId → Bool
  stat : IfaceId → Stat
  rxUnknownVif : UInt32
  spareData : Bool
  spareTotLen : ℕ
  mem : ℕ → List UInt8
  next : ℕ
  held : List ℕ
  mailbox : List (IfaceId × ℕ)
  freed : List ℕ
  received : List (UInt8 × List UInt8)
  posted : List Frame
  taken : List (IfaceId × List UInt8)
  supplicant : List Frame
  refused : List Frame
  quiet : ℕ
  offered : ℕ

/-- What the archive gets from `wifi_net_rx_alloc`, or hands over. -/
inductive Buffer
  | heap (id : ℕ)
  | spare
  | null
  deriving DecidableEq

namespace State

def init (t : Table) : State where
  table := t
  linkUp := fun _ => false
  stat := fun _ => ⟨0, 0⟩
  rxUnknownVif := 0
  spareData := false
  spareTotLen := 0
  mem := fun _ => []
  next := 0
  held := []
  mailbox := []
  freed := []
  received := []
  posted := []
  taken := []
  supplicant := []
  refused := []
  quiet := 0
  offered := 0

/-- `room` is what the stack's memory has there, if it has any left; the length it is asked for has
16 bits. -/
def wifiNetRxAlloc (s : State) (room : Option (List UInt8)) (len : ℕ) : Buffer × State :=
  match room with
  | some garbage =>
    (.heap s.next, { s with
      next := s.next + 1
      held := s.next :: s.held
      mem := Function.update s.mem s.next ((garbage ++ List.replicate len 0).take (len % 2 ^ 16)) })
  | none =>
    if s.spareData ∧ len ≤ rxSpareLen then (.spare, { s with spareTotLen := len % 2 ^ 16 })
    else (.null, s)

def pbufFree (s : State) (id : ℕ) : State := { s with freed := id :: s.freed }

def countFrame (s : State) (i : IfaceId) : State :=
  { s with stat := Function.update s.stat i { s.stat i with rxFrames := (s.stat i).rxFrames + 1 } }

def countDropped (s : State) (i : IfaceId) : State :=
  { s with
    stat := Function.update s.stat i { s.stat i with rxDropped := (s.stat i).rxDropped + 1 } }

end State

/-- A frame for the supplicant: a station's, of a piece, with the type of EAPOL. -/
def isEapol (i : IfaceId) (bytes : List UInt8) : Prop :=
  i = .sta ∧ ethHdrLen + 4 ≤ bytes.length ∧ bytes.getD 12 0 = 0x88 ∧ bytes.getD 13 0 = 0x8E

instance (i : IfaceId) (bytes : List UInt8) : Decidable (isEapol i bytes) :=
  inferInstanceAs (Decidable (_ ∧ _ ∧ _ ∧ _))

namespace State

def frame (s : State) (id : ℕ) (vifIdx : UInt8) (i : IfaceId) : Frame :=
  ⟨vifIdx, i, s.mem id, s.table, s.linkUp⟩

/-- The counter of an interface after one more frame for the stack. -/
def countLong (s : State) (x : Frame) : State :=
  if ethHdrLen ≤ x.bytes.length then s.countFrame x.iface else s

/-- `wifi_net_rx` with a buffer of the stack's; `room` is whether the mailbox takes it. -/
def wifiNetRx (s : State) (id : ℕ) (vifIdx : UInt8) (room : Bool) : State :=
  match ifaceFromVif s.table vifIdx with
  | none => { s with rxUnknownVif := s.rxUnknownVif + 1 }.pbufFree id
  | some i =>
    if isEapol i (s.mem id) then
      { s with supplicant := s.supplicant ++ [s.frame id vifIdx i] }.pbufFree id
    else if !s.linkUp i then { s with quiet := s.quiet + 1 }.pbufFree id
    else
      let x := s.frame id vifIdx i
      let s := s.countLong x
      if room then { s with mailbox := s.mailbox ++ [(i, id)], posted := s.posted ++ [x] }
      else { s with refused := s.refused ++ [x] }.pbufFree id

/-- `wifi_net_rx` with the spare. -/
def wifiNetRxSpare (s : State) (vifIdx : UInt8) : State :=
  match ifaceFromVif s.table vifIdx with
  | none => { s with rxUnknownVif := s.rxUnknownVif + 1 }
  | some i => s.countDropped i

/-- `pbuf_realloc` in `data_outbound_stub`. -/
def trim (s : State) (id length : ℕ) : State :=
  if length ≠ 0 ∧ length ≤ (s.mem id).length then
    { s with mem := Function.update s.mem id ((s.mem id).take length) }
  else s

def trimSpare (s : State) (length : ℕ) : State :=
  if length ≠ 0 ∧ length ≤ s.spareTotLen then { s with spareTotLen := length } else s

/-- `data_outbound_stub` -/
def dataOutbound (s : State) (p : Buffer) (length : ℕ) (vifIdx : UInt8) (room : Bool) : State :=
  match p with
  | .null => s
  | .spare => { s.trimSpare length with offered := s.offered + 1 }.wifiNetRxSpare vifIdx
  | .heap id =>
    let s := s.trim id length
    { s with
      held := s.held.erase id
      offered := s.offered + 1
      received := s.received ++ [(vifIdx, s.mem id)] }.wifiNetRx id vifIdx room

end State

inductive Label
  | spare
  | alloc (room : Option (List UInt8)) (len : ℕ)
  | fill (id : ℕ) (bytes : List UInt8)
  | drop (id : ℕ)
  | outbound (p : Buffer) (length : ℕ) (vifIdx : UInt8) (room : Bool)
  | take
  | setLink (i : IfaceId) (up : Bool)
  | setTable (t : Table)

/-- The archive writes to the buffers it has, frees them or hands them over, each once. -/
def step (s : State) : Label → Option State
  | .spare => some { s with spareData := true }
  | .alloc room len => some (s.wifiNetRxAlloc room len).2
  | .fill id bytes =>
    if id ∈ s.held ∧ bytes.length = (s.mem id).length then
      some { s with mem := Function.update s.mem id bytes }
    else none
  | .drop id => if id ∈ s.held then some ({ s with held := s.held.erase id }.pbufFree id) else none
  | .outbound p length vifIdx room =>
    match p with
    | .heap id => if id ∈ s.held then some (s.dataOutbound p length vifIdx room) else none
    | _ => some (s.dataOutbound p length vifIdx room)
  | .take =>
    match s.mailbox with
    | [] => none
    | (i, id) :: rest =>
      some ({ s with mailbox := rest, taken := s.taken ++ [(i, s.mem id)] }.pbufFree id)
  | .setLink i up => some { s with linkUp := Function.update s.linkUp i up }
  | .setTable t => some { s with table := t }

/-! ## Where the buffers are -/

namespace State

/-- The buffers that came from the stack's memory, each where it is. -/
def places (s : State) : List ℕ := s.held ++ s.mailbox.map Prod.snd ++ s.freed

/-- The frames in the mailbox, as the stack's thread will read them. -/
def waiting (s : State) : List (IfaceId × List UInt8) :=
  s.mailbox.map fun x => (x.1, s.mem x.2)

/-- What was handed over, by what became of it. -/
def accounted (s : State) : UInt32 :=
  s.rxUnknownVif + (s.stat .sta).rxDropped + (s.stat .ap).rxDropped +
    .ofNat (s.supplicant.length + s.quiet + s.posted.length + s.refused.length)

end State

/-- The interface carries the index the frame came with. -/
def Frame.Routed (x : Frame) : Prop := ifaceFromVif x.table x.vifIdx = some x.iface

/-- A frame for the stack: the link was up, and the supplicant has no claim to it. -/
def Frame.ForStack (x : Frame) : Prop :=
  x.Routed ∧ x.linkUp x.iface = true ∧ ¬isEapol x.iface x.bytes

def Frame.ForSupplicant (x : Frame) : Prop := x.Routed ∧ isEapol x.iface x.bytes

def Frame.counts (i : IfaceId) (x : Frame) : Bool :=
  decide (x.iface = i ∧ ethHdrLen ≤ x.bytes.length)

namespace State

structure Inv (s : State) : Prop where
  places : s.places.Perm (List.range s.next)
  intact : s.posted.map (fun x => (x.iface, x.bytes)) = s.taken ++ s.waiting
  ordered : (s.posted.map fun x => (x.vifIdx, x.bytes)).Sublist s.received
  heard : (s.supplicant.map fun x => (x.vifIdx, x.bytes)).Sublist s.received
  stack : ∀ x ∈ s.posted ++ s.refused, x.ForStack
  supplicant : ∀ x ∈ s.supplicant, x.ForSupplicant
  frames : ∀ i, (s.stat i).rxFrames = .ofNat ((s.posted ++ s.refused).countP (Frame.counts i))
  balanced : s.accounted = .ofNat s.offered

/-- The frame of `id` has left the archive's hands and is nowhere yet. -/
structure Carrying (s : State) (id : ℕ) (vifIdx : UInt8) : Prop where
  places : (id :: s.places).Perm (List.range s.next)
  intact : s.posted.map (fun x => (x.iface, x.bytes)) = s.taken ++ s.waiting
  ordered : (s.posted.map (fun x => (x.vifIdx, x.bytes)) ++ [(vifIdx, s.mem id)]).Sublist s.received
  heard : (s.supplicant.map (fun x => (x.vifIdx, x.bytes)) ++ [(vifIdx, s.mem id)]).Sublist
    s.received
  stack : ∀ x ∈ s.posted ++ s.refused, x.ForStack
  supplicant : ∀ x ∈ s.supplicant, x.ForSupplicant
  frames : ∀ i, (s.stat i).rxFrames = .ofNat ((s.posted ++ s.refused).countP (Frame.counts i))
  balanced : s.accounted + 1 = .ofNat s.offered

variable {s s' : State} {id : ℕ} {vifIdx : UInt8}

theorem Inv.apart (h : s.Inv) (hid : id ∈ s.held) : ∀ x ∈ s.mailbox, x.2 ≠ id := by
  rintro x hx rfl
  have hnodup : s.places.Nodup := h.places.nodup_iff.mpr List.nodup_range
  rw [State.places, List.append_assoc] at hnodup
  exact List.disjoint_of_nodup_append hnodup hid
    (List.mem_append_left _ (List.mem_map_of_mem hx))

/-- A write to a buffer that is not in the mailbox. -/
theorem waiting_update (hid : ∀ x ∈ s.mailbox, x.2 ≠ id) (bytes : List UInt8) :
    { s with mem := Function.update s.mem id bytes }.waiting = s.waiting := by
  refine List.map_congr_left fun x hx => ?_
  dsimp only
  rw [Function.update_of_ne (hid x hx)]

theorem perm_erase {held mailbox freed : List ℕ} (hid : id ∈ held) :
    (id :: (held.erase id ++ mailbox ++ freed)).Perm (held ++ mailbox ++ freed) :=
  (((List.perm_cons_erase hid).append_right mailbox).append_right freed).symm

theorem ofNat_succ (n : ℕ) : UInt32.ofNat (n + 1) = .ofNat n + 1 := UInt32.ofNat_add n 1

/-- The archive hands a buffer over. -/
theorem Inv.carry (h : s.Inv) (hid : id ∈ s.held) (vifIdx : UInt8) :
    { s with
      held := s.held.erase id
      offered := s.offered + 1
      received := s.received ++ [(vifIdx, s.mem id)] }.Carrying id vifIdx where
  places := (perm_erase hid).trans h.places
  intact := h.intact
  ordered := h.ordered.append (.refl _)
  heard := h.heard.append (.refl _)
  stack := h.stack
  supplicant := h.supplicant
  frames := h.frames
  balanced := by
    rw [ofNat_succ, ← h.balanced]
    rfl

theorem Inv.trim (h : s.Inv) (hid : id ∈ s.held) (length : ℕ) : (s.trim id length).Inv := by
  rw [State.trim]
  split_ifs
  · refine ⟨h.places, ?_, h.ordered, h.heard, h.stack, h.supplicant, h.frames, h.balanced⟩
    rw [waiting_update (h.apart hid)]
    exact h.intact
  · exact h

/-- It is freed, once what became of the frame is written down. -/
theorem perm_free (s : State) (id : ℕ) : (s.pbufFree id).places.Perm (id :: s.places) := by
  simp only [State.places, pbufFree]
  exact List.perm_middle

theorem countP_concat_left (l l' : List Frame) (x : Frame) (i : IfaceId) :
    (l ++ [x] ++ l').countP (Frame.counts i) = (l ++ (l' ++ [x])).countP (Frame.counts i) := by
  simp only [List.countP_append]
  omega

section Ends

variable (h : s.Carrying id vifIdx) {i : IfaceId}
include h

theorem Carrying.ordered' : (s.posted.map fun x => (x.vifIdx, x.bytes)).Sublist s.received :=
  (List.sublist_append_left _ _).trans h.ordered

theorem Carrying.heard' : (s.supplicant.map fun x => (x.vifIdx, x.bytes)).Sublist s.received :=
  (List.sublist_append_left _ _).trans h.heard

theorem Carrying.unknown :
    ({ s with rxUnknownVif := s.rxUnknownVif + 1 }.pbufFree id).Inv where
  places := (perm_free _ id).trans h.places
  intact := h.intact
  ordered := h.ordered'
  heard := h.heard'
  stack := h.stack
  supplicant := h.supplicant
  frames := h.frames
  balanced := by
    refine Eq.trans ?_ h.balanced
    simp only [accounted, pbufFree]
    ac_rfl

theorem Carrying.toSupplicant (hx : (s.frame id vifIdx i).ForSupplicant) :
    ({ s with supplicant := s.supplicant ++ [s.frame id vifIdx i] }.pbufFree id).Inv where
  places := (perm_free _ id).trans h.places
  intact := h.intact
  ordered := h.ordered'
  heard := by
    simp only [pbufFree, List.map_append]
    exact h.heard
  stack := h.stack
  supplicant x hx' := by
    rcases List.mem_append.mp hx' with hx' | hx'
    · exact h.supplicant x hx'
    · exact List.mem_singleton.mp hx' ▸ hx
  frames := h.frames
  balanced := by
    refine Eq.trans ?_ h.balanced
    simp only [accounted, pbufFree, List.length_append, List.length_singleton]
    rw [show s.supplicant.length + 1 + s.quiet + s.posted.length + s.refused.length =
      s.supplicant.length + s.quiet + s.posted.length + s.refused.length + 1 by omega, ofNat_succ,
      ← UInt32.add_assoc]

theorem Carrying.unlinked : ({ s with quiet := s.quiet + 1 }.pbufFree id).Inv where
  places := (perm_free _ id).trans h.places
  intact := h.intact
  ordered := h.ordered'
  heard := h.heard'
  stack := h.stack
  supplicant := h.supplicant
  frames := h.frames
  balanced := by
    refine Eq.trans ?_ h.balanced
    simp only [accounted, pbufFree]
    rw [show s.supplicant.length + (s.quiet + 1) + s.posted.length + s.refused.length =
      s.supplicant.length + s.quiet + s.posted.length + s.refused.length + 1 by omega, ofNat_succ,
      ← UInt32.add_assoc]

end Ends

theorem rxFrames_countLong (s : State) (x : Frame) (i : IfaceId) :
    ((s.countLong x).stat i).rxFrames =
      (s.stat i).rxFrames + .ofNat ([x].countP (Frame.counts i)) := by
  rw [countLong, List.countP_singleton, Frame.counts]
  by_cases hlong : ethHdrLen ≤ x.bytes.length
  · rw [if_pos hlong]
    by_cases hi : x.iface = i
    · subst hi
      simp [countFrame, hlong]
    · simp [countFrame, hi, Function.update_of_ne (Ne.symm hi)]
  · simp [hlong]

theorem accounted_countLong (s : State) (x : Frame) :
    (s.countLong x).accounted = s.accounted := by
  have hdropped : ∀ i, ((s.countLong x).stat i).rxDropped = (s.stat i).rxDropped := by
    intro i
    rw [countLong]
    split_ifs
    · simp only [countFrame, Function.update_apply]
      split_ifs with hi
      · rw [hi]
      · rfl
    · rfl
  have hsame : (s.countLong x).rxUnknownVif = s.rxUnknownVif ∧
      (s.countLong x).supplicant = s.supplicant ∧ (s.countLong x).quiet = s.quiet ∧
      (s.countLong x).posted = s.posted ∧ (s.countLong x).refused = s.refused := by
    rw [countLong]
    split_ifs <;> exact ⟨rfl, rfl, rfl, rfl, rfl⟩
  rw [accounted, hdropped, hdropped, hsame.1, hsame.2.1, hsame.2.2.1, hsame.2.2.2.1, hsame.2.2.2.2]
  rfl

/-- The fields that counting a frame leaves alone. -/
theorem countLong_eq (s : State) (x : Frame) :
    s.countLong x = { s with stat := (s.countLong x).stat } := by
  rw [countLong]
  split_ifs <;> rfl

section Ends

variable (h : s.Carrying id vifIdx) {i : IfaceId} (hx : (s.frame id vifIdx i).ForStack)
include h hx

theorem Carrying.post : { s.countLong (s.frame id vifIdx i) with
    mailbox := (s.countLong (s.frame id vifIdx i)).mailbox ++ [(i, id)]
    posted := (s.countLong (s.frame id vifIdx i)).posted ++ [s.frame id vifIdx i] }.Inv := by
  have hcount := rxFrames_countLong s (s.frame id vifIdx i)
  have hacc := accounted_countLong s (s.frame id vifIdx i)
  have hfields := countLong_eq s (s.frame id vifIdx i)
  generalize (s.countLong (s.frame id vifIdx i)).stat = stat at hfields
  rw [hfields] at hcount hacc ⊢
  refine ⟨?_, ?_, ?_, h.heard', ?_, h.supplicant, ?_, ?_⟩
  · refine List.Perm.trans ?_ h.places
    simp only [State.places, List.map_append, List.map_singleton]
    rw [← List.append_assoc, List.append_assoc]
    exact List.perm_middle
  · simp only [List.map_append, List.map_singleton, h.intact, State.waiting, List.append_assoc]
    rfl
  · simp only [List.map_append, List.map_singleton]
    exact h.ordered
  · intro x hx'
    simp only [List.mem_append, List.mem_singleton] at hx'
    rcases hx' with (hx' | rfl) | hx'
    · exact h.stack x (List.mem_append_left _ hx')
    · exact hx
    · exact h.stack x (List.mem_append_right _ hx')
  · intro j
    rw [countP_concat_left, ← List.append_assoc, List.countP_append, UInt32.ofNat_add, ← h.frames j]
    exact hcount j
  · refine Eq.trans ?_ h.balanced
    rw [← hacc]
    simp only [accounted, List.length_append, List.length_singleton]
    rw [show s.supplicant.length + s.quiet + (s.posted.length + 1) + s.refused.length =
      s.supplicant.length + s.quiet + s.posted.length + s.refused.length + 1 by omega, ofNat_succ,
      ← UInt32.add_assoc]

theorem Carrying.refuse : ({ s.countLong (s.frame id vifIdx i) with
    refused := (s.countLong (s.frame id vifIdx i)).refused ++
      [s.frame id vifIdx i] }.pbufFree id).Inv := by
  have hcount := rxFrames_countLong s (s.frame id vifIdx i)
  have hacc := accounted_countLong s (s.frame id vifIdx i)
  have hfields := countLong_eq s (s.frame id vifIdx i)
  generalize (s.countLong (s.frame id vifIdx i)).stat = stat at hfields
  rw [hfields] at hcount hacc ⊢
  refine ⟨(perm_free _ id).trans h.places, h.intact, h.ordered', h.heard', ?_, h.supplicant, ?_,
    ?_⟩
  · intro x hx'
    simp only [pbufFree, List.mem_append, List.mem_singleton] at hx'
    rcases hx' with hx' | hx' | rfl
    · exact h.stack x (List.mem_append_left _ hx')
    · exact h.stack x (List.mem_append_right _ hx')
    · exact hx
  · intro j
    simp only [pbufFree]
    rw [← List.append_assoc, List.countP_append, UInt32.ofNat_add, ← h.frames j]
    exact hcount j
  · refine Eq.trans ?_ h.balanced
    rw [← hacc]
    simp only [accounted, pbufFree, List.length_append, List.length_singleton]
    rw [← Nat.add_assoc, ofNat_succ, ← UInt32.add_assoc]

end Ends

theorem Carrying.wifiNetRx (h : s.Carrying id vifIdx) (room : Bool) :
    (s.wifiNetRx id vifIdx room).Inv := by
  rw [State.wifiNetRx]
  split
  · exact h.unknown
  next i hi =>
  by_cases heapol : isEapol i (s.mem id)
  · rw [if_pos heapol]
    exact h.toSupplicant ⟨hi, heapol⟩
  rw [if_neg heapol]
  cases hlink : s.linkUp i with
  | false => exact h.unlinked
  | true =>
    have hx : (s.frame id vifIdx i).ForStack := ⟨hi, hlink, heapol⟩
    rw [Bool.not_true, if_neg Bool.false_ne_true]
    cases room with
    | true => exact h.post hx
    | false => exact h.refuse hx

/-- The spare is counted and forgotten. -/
theorem Inv.spare (h : s.Inv) (length : ℕ) :
    ({ s.trimSpare length with offered := s.offered + 1 }.wifiNetRxSpare vifIdx).Inv := by
  have htrim : s.trimSpare length = { s with spareTotLen := (s.trimSpare length).spareTotLen } := by
    rw [trimSpare]
    split_ifs <;> rfl
  generalize (s.trimSpare length).spareTotLen = spareTotLen at htrim
  rw [htrim, wifiNetRxSpare]
  split
  · refine ⟨h.places, h.intact, h.ordered, h.heard, h.stack, h.supplicant, h.frames, ?_⟩
    rw [ofNat_succ, ← show s.accounted = UInt32.ofNat s.offered from h.balanced]
    simp only [accounted]
    ac_rfl
  next i hi =>
  refine ⟨h.places, h.intact, h.ordered, h.heard, h.stack, h.supplicant, fun j => ?_, ?_⟩
  · refine Eq.trans ?_ (h.frames j)
    simp only [countDropped, Function.update_apply]
    split_ifs with hj
    · rw [hj]
    · rfl
  · simp only [countDropped]
    rw [ofNat_succ, ← show s.accounted = UInt32.ofNat s.offered from h.balanced]
    cases i <;> simp [accounted] <;> ac_rfl

theorem Inv.alloc (h : s.Inv) (room : Option (List UInt8)) (len : ℕ) :
    (s.wifiNetRxAlloc room len).2.Inv := by
  cases room with
  | none =>
    rw [wifiNetRxAlloc]
    split_ifs
    · exact ⟨h.places, h.intact, h.ordered, h.heard, h.stack, h.supplicant, h.frames, h.balanced⟩
    · exact h
  | some garbage =>
    have hfresh : ∀ x ∈ s.mailbox, x.2 ≠ s.next := by
      rintro x hx heq
      have hmem : x.2 ∈ s.places :=
        List.mem_append_left _ (List.mem_append_right _ (List.mem_map_of_mem hx))
      rw [h.places.mem_iff, List.mem_range, heq] at hmem
      exact Nat.lt_irrefl _ hmem
    refine ⟨?_, ?_, h.ordered, h.heard, h.stack, h.supplicant, h.frames, h.balanced⟩
    · dsimp only [wifiNetRxAlloc, State.places]
      rw [List.range_succ, List.cons_append, List.cons_append]
      exact (h.places.cons _).trans (List.perm_append_singleton _ _).symm
    · have hwaiting := waiting_update hfresh ((garbage ++ List.replicate len 0).take (len % 2 ^ 16))
      exact h.intact.trans (congrArg (s.taken ++ ·) hwaiting.symm)

theorem Inv.step (h : s.Inv) {l : Label} (hstep : WifiRx.step s l = some s') : s'.Inv := by
  cases l with
  | spare =>
    cases hstep
    exact ⟨h.places, h.intact, h.ordered, h.heard, h.stack, h.supplicant, h.frames, h.balanced⟩
  | alloc room len =>
    cases hstep
    exact h.alloc room len
  | fill id bytes =>
    simp only [WifiRx.step] at hstep
    split_ifs at hstep with hid
    obtain rfl := Option.some.inj hstep
    refine ⟨h.places, ?_, h.ordered, h.heard, h.stack, h.supplicant, h.frames, h.balanced⟩
    rw [waiting_update (h.apart hid.1)]
    exact h.intact
  | drop id =>
    simp only [WifiRx.step] at hstep
    split_ifs at hstep with hid
    obtain rfl := Option.some.inj hstep
    exact ⟨(perm_free _ id).trans ((perm_erase hid).trans h.places), h.intact, h.ordered, h.heard,
      h.stack, h.supplicant, h.frames, h.balanced⟩
  | outbound p length vifIdx room =>
    cases p with
    | null =>
      cases hstep
      exact h
    | spare =>
      cases hstep
      exact h.spare length
    | heap id =>
      simp only [WifiRx.step] at hstep
      split_ifs at hstep with hid
      obtain rfl := Option.some.inj hstep
      have hheld : (s.trim id length).held = s.held := by
        rw [State.trim]
        split_ifs <;> rfl
      exact ((h.trim hid length).carry (by rwa [hheld]) vifIdx).wifiNetRx room
  | take =>
    simp only [WifiRx.step] at hstep
    split at hstep
    · cases hstep
    next i id rest hmailbox =>
    obtain rfl := Option.some.inj hstep
    refine ⟨?_, ?_, h.ordered, h.heard, h.stack, h.supplicant, h.frames, h.balanced⟩
    · refine List.Perm.trans ?_ h.places
      simp only [State.places, pbufFree, hmailbox, List.map_cons, List.append_assoc,
        List.cons_append]
      exact List.perm_middle.append_left s.held
    · refine h.intact.trans ?_
      simp [State.waiting, pbufFree, hmailbox]
  | setLink i up =>
    cases hstep
    exact ⟨h.places, h.intact, h.ordered, h.heard, h.stack, h.supplicant, h.frames, h.balanced⟩
  | setTable t =>
    cases hstep
    exact ⟨h.places, h.intact, h.ordered, h.heard, h.stack, h.supplicant, h.frames, h.balanced⟩

theorem inv_init (t : Table) : (init t).Inv where
  places := .refl _
  intact := rfl
  ordered := .refl _
  heard := .refl _
  stack := nofun
  supplicant := nofun
  frames _ := rfl
  balanced := rfl

end State

/-- Whatever the archive does with its buffers, and however the links and the tables change: a
buffer is in one place, and freed once; the stack reads the frames as they were received, in order,
those of linked interfaces only; the supplicant gets EAPOL and nothing else; every frame is
accounted for. -/
theorem wifiNetRx_runs {t : Table} {ls : List Label} {s : State}
    (hrun : runSteps step (State.init t) ls = some s) :
    s.places.Perm (List.range s.next) ∧
      s.posted.map (fun x => (x.iface, x.bytes)) = s.taken ++ s.waiting ∧
      (s.posted.map fun x => (x.vifIdx, x.bytes)).Sublist s.received ∧
      (∀ x ∈ s.posted, x.ForStack) ∧
      (s.supplicant.map fun x => (x.vifIdx, x.bytes)).Sublist s.received ∧
      (∀ x ∈ s.supplicant, x.ForSupplicant) ∧
      (∀ i, (s.stat i).rxFrames = .ofNat ((s.posted ++ s.refused).countP (Frame.counts i))) ∧
      s.accounted = .ofNat s.offered := by
  have h := @invariant_of_steps State Label step State.Inv (fun _ _ _ hs hstep => hs.step hstep) ls
    (State.init t) s (State.inv_init t) hrun
  exact ⟨h.places, h.intact, h.ordered, fun x hx => h.stack x (List.mem_append_left _ hx), h.heard,
    h.supplicant, h.frames, h.balanced⟩

/-- A frame that is trimmed and read, and one without memory. -/
def spareRun : List Label := [.setTable fun i => { wifiIfaces i with vif := 0, started := i = .sta },
  .setLink .sta true, .spare, .alloc (some []) 20, .fill 0 (List.replicate 20 1),
  .outbound (.heap 0) 18 0 true, .alloc none 20, .outbound .spare 20 0 true, .take]

theorem wifiNetRx_runs_spare : ∃ s, runSteps step (State.init wifiIfaces) spareRun = some s ∧
    s.taken = [(.sta, List.replicate 18 1)] ∧ (s.stat .sta).rxDropped = 1 ∧
    s.places.Perm (List.range s.next) :=
  ⟨_, rfl, rfl, rfl, (@wifiNetRx_runs wifiIfaces spareRun _ rfl).1⟩

end BekenCam.WifiRx
