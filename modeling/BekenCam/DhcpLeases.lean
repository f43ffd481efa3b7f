import BekenCam.ByteOrder
import BekenCam.DhcpModel
import BekenCam.LeastRecent

/-!
# Who holds which address

The table after any packets received is stamped in the order in which its clients were heard: a
client is heard when a message of it is well formed, whatever it asks. With fewer than `2 ^ 32`
packets the clock does not overflow.
-/
namespace BekenCam.Dhcp

/-! ## Reading a reply -/

theorem get32_toNat (a b c d : UInt8) (l : List UInt8) :
    (get32 (a :: b :: c :: d :: l)).toNat =
      16777216 * a.toNat + 65536 * b.toNat + 256 * c.toNat + d.toNat :=
  toNat_shifted a b c d

theorem get32_put32 (v : UInt32) (l : List UInt8) : get32 (put32 v ++ l) = v := by
  have hv := v.toNat_lt
  apply UInt32.toNat_inj.mp
  rw [put32]
  simp only [List.cons_append, List.nil_append]
  rw [get32_toNat]
  simp [Nat.shiftRight_eq_div_pow]
  omega

def replyYiaddr (r : List UInt8) : UInt32 := get32 (slice r 16 4)

/-- Option 53 is the first one. -/
def replyType (r : List UInt8) : UInt8 := (r.drop optionsOffset).getD 2 0

/-- A copy into the reply that starts behind a field leaves the field alone. -/
theorem slice_writeAt_front {l src : List UInt8} {at' off n : ℕ} (hat : at' ≤ l.length)
    (hn : off + n ≤ at') : slice (writeAt l at' src) off n = slice l off n :=
  slice_congr (take_writeAt hat) hn

theorem length_writeAt_reply {l src : List UInt8} {off : ℕ} (h : l.length = replyLen)
    (hsrc : off + src.length ≤ replyLen) : (writeAt l off src).length = replyLen := by
  rw [length_writeAt_of_le (by rw [h]; exact hsrc), h]

theorem length_writeAt_put32 {l : List UInt8} {off : ℕ} (v : UInt32) (h : l.length = replyLen)
    (hoff : off + 4 ≤ replyLen) : (writeAt l off (put32 v)).length = replyLen :=
  length_writeAt_reply h hoff

section Reply

variable (netif : Netif) (req : List UInt8) (type : UInt8) (yiaddr : UInt32)

theorem length_slice_le (l : List UInt8) (off n : ℕ) : (slice l off n).length ≤ n := by
  rw [length_slice]
  exact Nat.min_le_left _ _

/-- The reply up to the address. -/
theorem exists_replyHeader : ∃ m : List UInt8, m.length = replyLen ∧
    replyHeader netif req yiaddr = writeAt (writeAt (writeAt (writeAt m 16 (put32 yiaddr)) 20
      (put32 netif.addr)) 28 (slice req 28 16)) bootpFixedLen [0x63, 0x82, 0x53, 0x63] := by
  refine ⟨_, ?_, rfl⟩
  have h4 := length_slice_le req 4 4
  have h10 := length_slice_le req 10 2
  have h0 : (List.replicate replyLen (0 : UInt8)).length = replyLen := List.length_replicate
  refine length_writeAt_reply (length_writeAt_reply (length_writeAt_reply h0 (by decide)) ?_) ?_
  · unfold replyLen
    omega
  · unfold replyLen
    omega

theorem length_replyHeader : (replyHeader netif req yiaddr).length = replyLen := by
  obtain ⟨m, hm, heq⟩ := exists_replyHeader netif req yiaddr
  have h28 := length_slice_le req 28 16
  rw [heq]
  refine length_writeAt_reply (length_writeAt_reply (length_writeAt_put32 netif.addr
    (length_writeAt_put32 yiaddr hm (by decide)) (by decide)) ?_) (by decide)
  unfold replyLen
  omega

theorem slice_replyHeader : slice (replyHeader netif req yiaddr) 16 4 = put32 yiaddr := by
  obtain ⟨m, hm, heq⟩ := exists_replyHeader netif req yiaddr
  have h16 : (writeAt m 16 (put32 yiaddr)).length = replyLen :=
    length_writeAt_put32 yiaddr hm (by decide)
  have h20 : (writeAt (writeAt m 16 (put32 yiaddr)) 20 (put32 netif.addr)).length = replyLen :=
    length_writeAt_put32 netif.addr h16 (by decide)
  have h28 : (writeAt (writeAt (writeAt m 16 (put32 yiaddr)) 20 (put32 netif.addr)) 28
      (slice req 28 16)).length = replyLen := by
    refine length_writeAt_reply h20 ?_
    have hslice := length_slice_le req 28 16
    unfold replyLen
    omega
  rw [heq, slice_writeAt_front (by rw [h28]; decide) (by decide),
    slice_writeAt_front (by rw [h20]; decide) (by decide),
    slice_writeAt_front (by rw [h16]; decide) (by decide)]
  exact slice_writeAt (by rw [hm]; decide)

theorem reply_eq : reply netif req type yiaddr =
    (replyHeader netif req yiaddr).take optionsOffset ++ replyOptions netif type := by
  have hlen := length_replyHeader netif req yiaddr
  have hhead : ((replyHeader netif req yiaddr).take optionsOffset).length = optionsOffset := by
    rw [List.length_take, hlen]
    decide
  rw [reply, writeAt, List.take_left']
  rw [List.length_append, hhead]

@[simp] theorem replyType_reply : replyType (reply netif req type yiaddr) = type := by
  have hlen := length_replyHeader netif req yiaddr
  have hhead : ((replyHeader netif req yiaddr).take optionsOffset).length = optionsOffset := by
    rw [List.length_take, hlen]
    decide
  rw [replyType, reply_eq, List.drop_left' hhead]
  rfl

@[simp] theorem replyYiaddr_reply : replyYiaddr (reply netif req type yiaddr) = yiaddr := by
  have hlen := length_replyHeader netif req yiaddr
  have hhead : (reply netif req type yiaddr).take optionsOffset =
      (replyHeader netif req yiaddr).take optionsOffset := by
    rw [reply_eq, List.take_append_of_le_length, List.take_take, Nat.min_self]
    rw [List.length_take, hlen]
    decide
  rw [replyYiaddr, slice_congr hhead (by decide), slice_replyHeader]
  have hget := get32_put32 yiaddr []
  rwa [List.append_nil] at hget

end Reply

/-! ## The table -/

namespace Leases

variable {t : Leases} {mac : Octets 6} {i : Fin poolSize}

/-- The client that holds the slot. -/
def holder (t : Leases) (i : Fin poolSize) : Option (Octets 6) :=
  if (t.slot i).used then some (t.slot i).mac else none

def stamp (t : Leases) (i : Fin poolSize) : ℕ := (t.slot i).seen.toNat

theorem holder_eq_some : t.holder i = some mac ↔ (t.slot i).used = true ∧ (t.slot i).mac = mac := by
  unfold holder
  split_ifs with hused <;> simp [hused]

theorem holder_eq_none : t.holder i = none ↔ (t.slot i).used = false := by
  unfold holder
  split_ifs with hused <;> simp [hused]

@[simp] theorem holder_clear (i : Fin poolSize) : clear.holder i = none := rfl

@[simp] theorem holder_assign :
    (t.assign i mac).holder = Function.update t.holder i (some mac) := by
  funext j
  by_cases hji : j = i
  · rw [hji, Function.update_self, holder_eq_some]
    simp [assign]
  · rw [Function.update_of_ne hji]
    simp [holder, assign, hji]

theorem stamp_assign (hclock : t.clock.toNat + 1 < 2 ^ 32) :
    (t.assign i mac).stamp = Function.update t.stamp i (t.clock.toNat + 1) := by
  funext j
  by_cases hji : j = i
  · rw [hji, Function.update_self]
    simp only [stamp, assign, Function.update_self, UInt32.toNat_add]
    exact Nat.mod_eq_of_lt hclock
  · rw [Function.update_of_ne hji]
    simp [stamp, assign, hji]

theorem clock_assign (hclock : t.clock.toNat + 1 < 2 ^ 32) :
    (t.assign i mac).clock.toNat = t.clock.toNat + 1 := by
  simp only [assign, UInt32.toNat_add]
  exact Nat.mod_eq_of_lt hclock

theorem holder_assign_self (h : t.holder i = some mac) : (t.assign i mac).holder = t.holder := by
  rw [holder_assign, ← h, Function.update_eq_self]

/-- A holder that is heard again is as if it had just got its slot. -/
theorem refresh_eq_assign (h : t.holder i = some mac) : t.refresh i = t.assign i mac := by
  obtain ⟨hused, hmac⟩ := holder_eq_some.mp h
  have hslot : ({ t.slot i with seen := t.clock + 1 } : Lease) = ⟨true, mac, t.clock + 1⟩ := by
    rw [← hused, ← hmac]
  rw [refresh, assign, hslot]

theorem find_cases (t : Leases) (mac : Octets 6) :
    (∃ i, t.holder i = some mac ∧ t.find mac = (some i, t.assign i mac)) ∨
      ((∀ i, t.holder i ≠ some mac) ∧ t.find mac = (none, t)) := by
  unfold find
  split
  · rename_i i hfind
    have hmatch := List.find?_some hfind
    have hholder : t.holder i = some mac := by
      rw [Bool.and_eq_true, beq_iff_eq] at hmatch
      exact holder_eq_some.mpr hmatch
    exact .inl ⟨i, hholder, by rw [refresh_eq_assign hholder]⟩
  · rename_i hfind
    refine .inr ⟨fun i hholder => ?_, rfl⟩
    have hnot := List.find?_eq_none.mp hfind i (List.mem_finRange i)
    rw [holder_eq_some] at hholder
    simp [hholder] at hnot

/-- The loop stops at the first free slot, or with the oldest one. -/
theorem takeLoop_spec (t : Leases) (mac : Octets 6) (slots : List (Fin poolSize))
    (oldest : Fin poolSize) :
    ∃ i, t.takeLoop mac slots oldest = (i, t.assign i mac) ∧
      ((∃ j ∈ slots, t.holder j = none) → t.holder i = none) ∧
      ((∀ j ∈ slots, t.holder j ≠ none) →
        t.stamp i ≤ t.stamp oldest ∧ ∀ j ∈ slots, t.stamp i ≤ t.stamp j) := by
  induction slots generalizing oldest with
  | nil => exact ⟨oldest, rfl, by simp, fun _ => by simp⟩
  | cons j slots ih =>
    by_cases hfree : t.holder j = none
    · refine ⟨j, ?_, fun _ => hfree, fun hused => absurd hfree (hused j (by simp))⟩
      rw [holder_eq_none] at hfree
      simp [takeLoop, hfree]
    · have hused : (t.slot j).used = true := by
        rw [holder_eq_none] at hfree
        simpa using hfree
      obtain ⟨i, htake, hnone, hleast⟩ :=
        ih (if (t.slot j).seen < (t.slot oldest).seen then j else oldest)
      refine ⟨i, by simpa [takeLoop, hused] using htake, ?_, fun hall => ?_⟩
      · rintro ⟨k, hk, hknone⟩
        rcases List.mem_cons.mp hk with rfl | hk
        · exact absurd hknone hfree
        · exact hnone ⟨k, hk, hknone⟩
      · obtain ⟨hle, hrest⟩ := hleast fun k hk => hall k (List.mem_cons_of_mem j hk)
        have hmin : t.stamp i ≤ t.stamp j ∧ t.stamp i ≤ t.stamp oldest := by
          split_ifs at hle with hlt
          · exact ⟨hle, le_trans hle (le_of_lt (UInt32.lt_iff_toNat_lt.mp hlt))⟩
          · rw [UInt32.lt_iff_toNat_lt, not_lt] at hlt
            exact ⟨le_trans hle hlt, hle⟩
        refine ⟨hmin.2, fun k hk => ?_⟩
        rcases List.mem_cons.mp hk with rfl | hk
        · exact hmin.1
        · exact hrest k hk

/-- A client that holds no slot gets a free one, or else that of a least stamp. -/
theorem take_spec (h : ∀ i, t.holder i ≠ some mac) :
    ∃ i, t.take mac = (i, t.assign i mac) ∧
      ((∃ j, t.holder j = none) → t.holder i = none) ∧
      ((∀ j, t.holder j ≠ none) → ∀ j, t.stamp i ≤ t.stamp j) := by
  obtain ⟨i, htake, hnone, hleast⟩ :=
    takeLoop_spec t mac (List.finRange poolSize) ⟨0, by decide⟩
  refine ⟨i, ?_, fun ⟨j, hj⟩ => hnone ⟨j, List.mem_finRange j, hj⟩,
    fun hall j => (hleast fun j _ => hall j).2 j (List.mem_finRange j)⟩
  rcases find_cases t mac with ⟨j, hj, -⟩ | ⟨-, hfind⟩
  · exact absurd hj (h j)
  · rw [take, hfind]
    exact htake

theorem claim_cases (t : Leases) (wanted : ℕ) (mac : Octets 6) :
    (∃ i : Fin poolSize, i.val = wanted ∧ t.holder i = none ∧
      t.claim wanted mac = some (i, t.assign i mac)) ∨ t.claim wanted mac = none := by
  unfold claim
  split_ifs with hlt hused
  · exact .inr rfl
  · exact .inl ⟨⟨wanted, hlt⟩, rfl, holder_eq_none.mpr (by simpa using hused), rfl⟩
  · exact .inr rfl

theorem holder_release (slot : Fin poolSize) :
    (t.release (some slot)).holder = Function.update t.holder slot none := by
  funext j
  by_cases hji : j = slot
  · rw [hji, Function.update_self, holder_eq_none]
    simp [release]
  · rw [Function.update_of_ne hji]
    simp [holder, release, hji]

theorem stamp_release (slot : Fin poolSize) : (t.release (some slot)).stamp = t.stamp := by
  funext j
  by_cases hji : j = slot
  · rw [hji]
    simp [stamp, release]
  · simp [stamp, release, hji]

end Leases

/-! ## Every history -/

/-- A well-formed message of this client. -/
def isFrom (mac : Octets 6) (packet : Packet) : Bool :=
  (request packet).any fun req => req.options.isSome && req.mac == mac

theorem isFrom_eq {packet : Packet} {req : Request} {options : Options} (mac : Octets 6)
    (hreq : request packet = some req) (hoptions : req.options = some options) :
    isFrom mac packet = (req.mac == mac) := by
  simp [isFrom, hreq, hoptions]

structure Keeps (received : List Packet) (t : Leases) : Prop where
  stamped : Stamped t.holder t.stamp t.clock.toNat fun mac => age (isFrom mac) received
  clock_le : t.clock.toNat ≤ received.length

namespace Keeps

variable {received : List Packet} {t : Leases} {packet : Packet} {req : Request}
  {options : Options} {i : Fin poolSize}

theorem clear : Keeps [] .clear := ⟨.empty, Nat.le_refl 0⟩

/-- Nobody who holds a slot was heard. -/
theorem skip (h : Keeps received t)
    (hnot : ∀ i mac, t.holder i = some mac → isFrom mac packet = false) :
    Keeps (received ++ [packet]) t where
  stamped := h.stamped.skip fun i mac hi => age_of_neg (hnot i mac hi)
  clock_le := by
    rw [List.length_append]
    exact Nat.le_add_right_of_le h.clock_le

/-- The sender has the slot `i` and no other. -/
theorem put (h : Keeps received t) (hfew : received.length + 1 < 2 ^ 32)
    (hreq : request packet = some req) (hoptions : req.options = some options)
    (halone : ∀ j, t.holder j = some req.mac → j = i) :
    Keeps (received ++ [packet]) (t.assign i req.mac) := by
  have hle := h.clock_le
  have hclock : t.clock.toNat + 1 < 2 ^ 32 := by omega
  refine ⟨?_, ?_⟩
  · rw [Leases.holder_assign, Leases.stamp_assign hclock, Leases.clock_assign hclock]
    refine h.stamped.put halone (age_of_pos ?_) fun j mac _ hne => age_of_neg ?_
    · rw [isFrom_eq _ hreq hoptions, beq_self_eq_true]
    · rw [isFrom_eq _ hreq hoptions]
      exact beq_false_of_ne (Ne.symm hne)
  · rw [Leases.clock_assign hclock, List.length_append]
    exact Nat.succ_le_succ hle

theorem release (h : Keeps received t) (slot : Option (Fin poolSize)) :
    Keeps received (t.release slot) := by
  cases slot with
  | none => exact h
  | some slot =>
    refine ⟨?_, h.clock_le⟩
    rw [Leases.holder_release, Leases.stamp_release]
    exact h.stamped.free slot

/-- The sender holds no slot. -/
theorem stranger (h : Keeps received t) (hreq : request packet = some req)
    (hoptions : req.options = some options) (hnone : ∀ i, t.holder i ≠ some req.mac) :
    Keeps (received ++ [packet]) t := by
  refine h.skip fun i mac hi => ?_
  rw [isFrom_eq _ hreq hoptions]
  refine beq_false_of_ne ?_
  rintro rfl
  exact hnone i hi

/-- The table after the sender was looked up. -/
theorem find (h : Keeps received t) (hfew : received.length + 1 < 2 ^ 32)
    (hreq : request packet = some req) (hoptions : req.options = some options) :
    Keeps (received ++ [packet]) (t.find req.mac).2 := by
  rcases t.find_cases req.mac with ⟨i, hi, hfind⟩ | ⟨hnone, hfind⟩
  · rw [hfind]
    exact h.put hfew hreq hoptions fun j hj => h.stamped.unique j i req.mac hj hi
  · rw [hfind]
    exact h.stranger hreq hoptions hnone

end Keeps

/-! ## One message -/

/-- What `onMessage` does. -/
inductive Outcome (netif : Netif) (t : Leases) (req : Request) (options : Options) :
    Leases × Option (List UInt8) → Prop
  | offerHeld (i : Fin poolSize) (type : options.type = msgDiscover)
      (held : t.holder i = some req.mac) :
      Outcome netif t req options
        (t.assign i req.mac, some (reply netif req.bytes msgOffer (slotAddr netif i)))
  | offerNew (i : Fin poolSize) (type : options.type = msgDiscover)
      (unknown : ∀ j, t.holder j ≠ some req.mac)
      (free : (∃ j, t.holder j = none) → t.holder i = none)
      (least : (∀ j, t.holder j ≠ none) → ∀ j, t.stamp i ≤ t.stamp j) :
      Outcome netif t req options
        (t.assign i req.mac, some (reply netif req.bytes msgOffer (slotAddr netif i)))
  | ack (i : Fin poolSize) (type : options.type = msgRequest)
      (place : t.holder i = some req.mac ∨
        (∀ j, t.holder j ≠ some req.mac) ∧ t.holder i = none)
      (addr : req.requested options = slotAddr netif i) :
      Outcome netif t req options
        (t.assign i req.mac, some (reply netif req.bytes msgAck (req.requested options)))
  | nak (type : options.type = msgRequest) :
      Outcome netif t req options ((t.find req.mac).2, some (reply netif req.bytes msgNak 0))
  | release (type : options.type = msgRelease) :
      Outcome netif t req options ((t.find req.mac).2.release (t.find req.mac).1, none)
  | other (type : options.type ≠ msgDiscover ∧ options.type ≠ msgRelease) :
      Outcome netif t req options ((t.find req.mac).2, none)

section Outcome

variable {netif : Netif} {t : Leases} {req : Request} {options : Options}

theorem slotAddr_wanted {i : Fin poolSize} {requested : UInt32}
    (h : i.val = (requested - netif.addr - 1).toNat) : requested = slotAddr netif i := by
  rw [slotAddr, h, UInt32.ofNat_toNat]
  grind

/-- A stranger that asks for an address of ours that is free has it now. -/
theorem claimRequested_cases (netif : Netif) (t : Leases) (requested : UInt32) (mac : Octets 6) :
    (∃ i, t.holder i = none ∧ requested = slotAddr netif i ∧
      claimRequested netif requested mac (none, t) = (some i, t.assign i mac)) ∨
      claimRequested netif requested mac (none, t) = (none, t) := by
  simp only [claimRequested]
  split_ifs
  · rcases t.claim_cases (requested - netif.addr - 1).toNat mac with ⟨i, hi, hnone, hclaim⟩ | hclaim
    · rw [hclaim]
      exact .inl ⟨i, hnone, slotAddr_wanted hi, rfl⟩
    · rw [hclaim]
      exact .inr rfl
  · exact .inr rfl

theorem outcome_discover (type : options.type = msgDiscover)
    (hoptions : req.options = some options) :
    Outcome netif t req options (onMessage netif t req) := by
  rcases t.find_cases req.mac with ⟨i, hi, hfind⟩ | ⟨hunknown, hfind⟩
  · simp only [onMessage, hoptions, hfind, if_pos type]
    exact .offerHeld i type hi
  · obtain ⟨i, htake, hfree, hleast⟩ := Leases.take_spec hunknown
    simp only [onMessage, hoptions, hfind, if_pos type, htake]
    exact .offerNew i type hunknown hfree hleast

theorem outcome_request (type : options.type = msgRequest) (hoptions : req.options = some options) :
    Outcome netif t req options (onMessage netif t req) := by
  have hne : options.type ≠ msgDiscover := by
    rw [type]
    decide
  rcases t.find_cases req.mac with ⟨i, hi, hfind⟩ | ⟨hunknown, hfind⟩
  · simp only [onMessage, hoptions, hfind, if_neg hne, if_pos type, claimRequested, Option.any_some,
      beq_iff_eq]
    split_ifs with haddr
    · exact .ack i type (.inl hi) haddr
    · have hnak : Outcome netif t req options _ := .nak type
      rwa [hfind] at hnak
  · simp only [onMessage, hoptions, hfind, if_neg hne, if_pos type]
    rcases claimRequested_cases netif t (req.requested options) req.mac with
      ⟨i, hnone, haddr, hclaim⟩ | hclaim
    · simp only [hclaim, Option.any_some, beq_iff_eq, if_pos haddr]
      exact .ack i type (.inr ⟨hunknown, hnone⟩) haddr
    · simp only [hclaim, Option.any_none, Bool.false_eq_true, if_false]
      have hnak : Outcome netif t req options _ := .nak type
      rwa [hfind] at hnak

theorem outcome (hoptions : req.options = some options) :
    Outcome netif t req options (onMessage netif t req) := by
  by_cases hdiscover : options.type = msgDiscover
  · exact outcome_discover hdiscover hoptions
  by_cases hrequest : options.type = msgRequest
  · exact outcome_request hrequest hoptions
  simp only [onMessage, hoptions, if_neg hdiscover, if_neg hrequest]
  split_ifs with hrelease
  · exact .release hrelease
  · exact .other ⟨hdiscover, hrelease⟩

end Outcome

/-- What a message does to the table that has served `received`, and how it is answered. -/
structure Served (netif : Netif) (received : List Packet) (before : Leases) (packet : Packet)
    (after : Leases) (response : Option (List UInt8)) : Prop where
  oneSlot : ∀ i j mac, after.holder i = some mac → after.holder j = some mac → i = j
  address : ∀ r, response = some r → replyType r = msgOffer ∨ replyType r = msgAck →
    ∃ req, request packet = some req ∧ ∃ slot, after.holder slot = some req.mac ∧
      replyYiaddr r = netif.addr + 1 + UInt32.ofNat slot
  asked : ∀ r, response = some r → replyType r = msgAck → ∃ req options,
    request packet = some req ∧ req.options = some options ∧ options.type = msgRequest ∧
      replyYiaddr r = req.requested options
  refused : ∀ r, response = some r → replyType r = msgNak → after.holder = before.holder
  discover : ∀ req options, request packet = some req → req.options = some options →
    options.type = msgDiscover → (∀ i, before.holder i ≠ some req.mac) →
    ∃ slot, after.holder = Function.update before.holder slot (some req.mac) ∧
      ((∃ i, before.holder i = none) → before.holder slot = none) ∧
      ((∀ i, before.holder i ≠ none) → ∃ evicted, before.holder slot = some evicted ∧
        ∀ i mac, before.holder i = some mac → mac ≠ evicted →
          age (isFrom mac) received < age (isFrom evicted) received)
  release : ∀ req options, request packet = some req → req.options = some options →
    options.type = msgRelease →
    ∀ i, after.holder i = if before.holder i = some req.mac then none else before.holder i

section Serving

variable {netif : Netif} {received : List Packet} {t : Leases} {packet : Packet} {req : Request}
  {options : Options} {result : Leases × Option (List UInt8)}

theorem Outcome.keeps (h : Outcome netif t req options result) (hkeeps : Keeps received t)
    (hfew : received.length + 1 < 2 ^ 32) (hreq : request packet = some req)
    (hoptions : req.options = some options) : Keeps (received ++ [packet]) result.1 := by
  have hfind := hkeeps.find hfew hreq hoptions
  cases h with
  | offerHeld i _ held =>
    exact hkeeps.put hfew hreq hoptions fun j hj => hkeeps.stamped.unique j i req.mac hj held
  | offerNew i _ unknown =>
    exact hkeeps.put hfew hreq hoptions fun j hj => absurd hj (unknown j)
  | ack i _ place =>
    refine hkeeps.put hfew hreq hoptions fun j hj => ?_
    rcases place with held | ⟨unknown, -⟩
    · exact hkeeps.stamped.unique j i req.mac hj held
    · exact absurd hj (unknown j)
  | nak | other => exact hfind
  | release => exact hfind.release _

theorem holder_find (t : Leases) (mac : Octets 6) : (t.find mac).2.holder = t.holder := by
  rcases t.find_cases mac with ⟨i, hi, hfind⟩ | ⟨-, hfind⟩
  · rw [hfind]
    exact Leases.holder_assign_self hi
  · rw [hfind]

/-- Only the slot of the sender becomes free. -/
theorem holder_release_find (hkeeps : Keeps received t) (mac : Octets 6) (i : Fin poolSize) :
    ((t.find mac).2.release (t.find mac).1).holder i =
      if t.holder i = some mac then none else t.holder i := by
  rcases t.find_cases mac with ⟨j, hj, hfind⟩ | ⟨hnone, hfind⟩
  · rw [hfind, Leases.holder_release, Leases.holder_assign_self hj]
    by_cases hij : i = j
    · rw [hij, Function.update_self, if_pos hj]
    · have hne : t.holder i ≠ some mac := fun hi => hij (hkeeps.stamped.unique i j mac hi hj)
      rw [Function.update_of_ne hij, if_neg hne]
  · rw [hfind, if_neg (hnone i)]
    rfl

theorem replied {bytes r : List UInt8} {type : UInt8} {yiaddr : UInt32}
    (h : some (reply netif bytes type yiaddr) = some r) :
    replyType r = type ∧ replyYiaddr r = yiaddr := by
  rw [← Option.some.inj h]
  exact ⟨replyType_reply .., replyYiaddr_reply ..⟩

theorem Outcome.address (h : Outcome netif t req options result) {r : List UInt8}
    (hr : result.2 = some r) (htype : replyType r = msgOffer ∨ replyType r = msgAck) :
    ∃ slot, result.1.holder slot = some req.mac ∧
      replyYiaddr r = netif.addr + 1 + UInt32.ofNat slot := by
  have hheld : ∀ i, (t.assign i req.mac).holder i = some req.mac := by
    intro i
    rw [Leases.holder_assign, Function.update_self]
  cases h with
  | offerHeld i | offerNew i => exact ⟨i, hheld i, (replied hr).2⟩
  | ack i _ _ addr => exact ⟨i, hheld i, (replied hr).2.trans addr⟩
  | nak =>
    rw [(replied hr).1] at htype
    exact absurd htype (by decide)
  | release | other => cases hr

theorem Outcome.asked (h : Outcome netif t req options result) {r : List UInt8}
    (hr : result.2 = some r) (htype : replyType r = msgAck) :
    options.type = msgRequest ∧ replyYiaddr r = req.requested options := by
  cases h with
  | ack i type => exact ⟨type, (replied hr).2⟩
  | offerHeld | offerNew | nak =>
    rw [(replied hr).1] at htype
    exact absurd htype (by decide)
  | release | other => cases hr

theorem Outcome.refused (h : Outcome netif t req options result) {r : List UInt8}
    (hr : result.2 = some r) (htype : replyType r = msgNak) : result.1.holder = t.holder := by
  cases h with
  | nak => exact holder_find t req.mac
  | offerHeld | offerNew | ack =>
    rw [(replied hr).1] at htype
    exact absurd htype (by decide)
  | release | other => cases hr

theorem Outcome.discover (h : Outcome netif t req options result) (hkeeps : Keeps received t)
    (htype : options.type = msgDiscover) (hunknown : ∀ i, t.holder i ≠ some req.mac) :
    ∃ slot, result.1.holder = Function.update t.holder slot (some req.mac) ∧
      ((∃ i, t.holder i = none) → t.holder slot = none) ∧
      ((∀ i, t.holder i ≠ none) → ∃ evicted, t.holder slot = some evicted ∧
        ∀ i mac, t.holder i = some mac → mac ≠ evicted →
          age (isFrom mac) received < age (isFrom evicted) received) := by
  cases h with
  | offerHeld i _ held => exact absurd held (hunknown i)
  | offerNew i _ _ free least =>
    refine ⟨i, Leases.holder_assign, free, fun hall => ?_⟩
    obtain ⟨evicted, hevicted⟩ := Option.ne_none_iff_exists'.mp (hall i)
    exact ⟨evicted, hevicted, fun j mac hj hne =>
      hkeeps.stamped.oldest hevicted (least hall) hj hne⟩
  | ack _ type | nak type | release type =>
    rw [type] at htype
    exact absurd htype (by decide)
  | other type => exact absurd htype type.1

theorem Outcome.released (h : Outcome netif t req options result) (hkeeps : Keeps received t)
    (htype : options.type = msgRelease) (i : Fin poolSize) :
    result.1.holder i = if t.holder i = some req.mac then none else t.holder i := by
  cases h with
  | release => exact holder_release_find hkeeps req.mac i
  | offerHeld _ type | offerNew _ type | ack _ type | nak type =>
    rw [type] at htype
    exact absurd htype (by decide)
  | other type => exact absurd htype type.2

/-- A message that is heard. -/
theorem Outcome.served (h : Outcome netif t req options result) (hkeeps : Keeps received t)
    (hfew : received.length + 1 < 2 ^ 32) (hreq : request packet = some req)
    (hoptions : req.options = some options) :
    Served netif received t packet result.1 result.2 := by
  refine ⟨(h.keeps hkeeps hfew hreq hoptions).stamped.unique,
    fun r hr htype => ⟨req, hreq, h.address hr htype⟩,
    fun r hr htype => ⟨req, options, hreq, hoptions, h.asked hr htype⟩,
    fun r hr htype => h.refused hr htype, ?_, ?_⟩
  · intro req' options' hreq' hoptions' htype hunknown
    obtain rfl := Option.some.inj (hreq'.symm.trans hreq)
    obtain rfl := Option.some.inj (hoptions'.symm.trans hoptions)
    exact h.discover hkeeps htype hunknown
  · intro req' options' hreq' hoptions' htype i
    obtain rfl := Option.some.inj (hreq'.symm.trans hreq)
    obtain rfl := Option.some.inj (hoptions'.symm.trans hoptions)
    exact h.released hkeeps htype i

/-- A packet that is not a message, or whose options are malformed, changes nothing. -/
theorem receive_unheard (h : ∀ req, request packet = some req → req.options = none) :
    receive netif t packet = (t, none) := by
  unfold receive
  cases hreq : request packet with
  | none => rfl
  | some req => simp only [onMessage, h req hreq]

theorem keeps_receive (hkeeps : Keeps received t) (hfew : received.length + 1 < 2 ^ 32) :
    Keeps (received ++ [packet]) (receive netif t packet).1 ∧
      Served netif received t packet (receive netif t packet).1 (receive netif t packet).2 := by
  by_cases hheard : ∃ req options, request packet = some req ∧ req.options = some options
  · obtain ⟨req, options, hreq, hoptions⟩ := hheard
    have houtcome : Outcome netif t req options (receive netif t packet) := by
      rw [receive, hreq]
      exact outcome hoptions
    exact ⟨houtcome.keeps hkeeps hfew hreq hoptions, houtcome.served hkeeps hfew hreq hoptions⟩
  · have hunheard : ∀ req, request packet = some req → req.options = none := by
      intro req hreq
      by_contra hsome
      obtain ⟨options, hoptions⟩ := Option.ne_none_iff_exists'.mp hsome
      exact hheard ⟨req, options, hreq, hoptions⟩
    rw [receive_unheard hunheard]
    refine ⟨hkeeps.skip fun i mac _ => ?_, hkeeps.stamped.unique, nofun, nofun, nofun, ?_, ?_⟩
    · cases hreq : request packet with
      | none => simp [isFrom, hreq]
      | some req => simp [isFrom, hreq, hunheard req hreq]
    · exact fun req options hreq hoptions => absurd ⟨req, options, hreq, hoptions⟩ hheard
    · exact fun req options hreq hoptions => absurd ⟨req, options, hreq, hoptions⟩ hheard

theorem keeps_leasesAfter (netif : Netif) (received : List Packet)
    (hfew : received.length < 2 ^ 32) : Keeps received (leasesAfter netif received) := by
  induction received using List.reverseRecOn with
  | nil => exact .clear
  | append_singleton received packet ih =>
    rw [List.length_append, List.length_singleton] at hfew
    rw [leasesAfter, List.foldl_append, List.foldl_cons, List.foldl_nil]
    exact (keeps_receive (ih (by omega)) hfew).1

end Serving

/-- Every packet of fewer than `2 ^ 32` is served as the table of the clients heard before says. -/
theorem dhcp_leases_served (netif : Netif) (received : List Packet) (packet : Packet)
    (hfew : (received ++ [packet]).length < 2 ^ 32) :
    Served netif received (leasesAfter netif received) packet
      (receive netif (leasesAfter netif received) packet).1
      (receive netif (leasesAfter netif received) packet).2 := by
  rw [List.length_append, List.length_singleton] at hfew
  exact (keeps_receive (keeps_leasesAfter netif received (by omega)) hfew).2

def macEnding (last : UInt8) : Octets 6 := ⟨[2, 0, 0, 0, 0, last], rfl⟩

/-- A message of the client `last`, with its type as the only option. -/
def messageOf (last type : UInt8) : Packet :=
  ⟨[1, 1, 6, 0] ++ List.replicate 24 0 ++ (macEnding last).val ++ List.replicate 202 0 ++
    [0x63, 0x82, 0x53, 0x63] ++ [53, 1, type, 255], by
    simp only [List.length_append, List.length_replicate, (macEnding last).property,
      List.length_cons, List.length_nil]
    decide⟩

/-- Four clients fill the pool, and the first is heard once more. -/
def fullPool : List Packet :=
  [messageOf 1 msgDiscover, messageOf 2 msgDiscover, messageOf 3 msgDiscover,
    messageOf 4 msgDiscover, messageOf 1 msgRequest]

def apNetif : Netif := ⟨0xC0A80401, 0xFFFFFF00⟩

/-- The next client gets the slot of the second. -/
theorem dhcp_leases_served_fullPool :
    Served apNetif fullPool (leasesAfter apNetif fullPool) (messageOf 5 msgDiscover)
        (receive apNetif (leasesAfter apNetif fullPool) (messageOf 5 msgDiscover)).1
        (receive apNetif (leasesAfter apNetif fullPool) (messageOf 5 msgDiscover)).2 ∧
      (leasesAfter apNetif (fullPool ++ [messageOf 5 msgDiscover])).holder ⟨1, by decide⟩ =
        some (macEnding 5) :=
  ⟨dhcp_leases_served apNetif fullPool _ (by decide), by decide +kernel⟩

end BekenCam.Dhcp
