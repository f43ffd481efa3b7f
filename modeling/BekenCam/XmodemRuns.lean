import BekenCam.XmodemTurns

/-!
# Runs of the receiver as turns

What a turn of either loop can read, copy and lead to, said once. A run of the
receiver is a list of such turns, each from the state the one before left.
-/
namespace BekenCam.Xmodem

open Prog

variable {fuel : ℕ} {maxLen : UInt32} {es : List Event}

/-! ## Reading a block -/

theorem recvExact_cases {len : ℕ} {res : Option (List UInt8)}
    (h : Performs (xmodemRecvExact len XMODEM_TIMEOUT_BYTE_MS) es res) :
    ∃ answers, es = answers.map byteRead ∧
      ((∃ data, res = some data ∧ answers = data.map some ∧ data.length = len) ∨
        (res = none ∧ none ∈ answers)) := by
  induction len generalizing es res with
  | zero =>
    obtain ⟨rfl, rfl⟩ := performs_ret h
    exact ⟨[], rfl, .inl ⟨[], rfl, rfl, rfl⟩⟩
  | succ len ih =>
    obtain ⟨c, fs, rfl, hc⟩ := performs_command h
    cases c with
    | none =>
      obtain ⟨rfl, rfl⟩ := performs_ret hc
      exact ⟨[none], rfl, .inr ⟨rfl, List.mem_singleton_self _⟩⟩
    | some c =>
      obtain ⟨tail, gs, hs, rfl, htail, hret⟩ := performs_bind hc
      obtain ⟨answers, rfl, ⟨data, rfl, rfl, hlen⟩ | ⟨rfl, hmem⟩⟩ := ih htail
      · obtain ⟨rfl, rfl⟩ := performs_ret hret
        exact ⟨some c :: data.map some, by simp, .inl ⟨c :: data, rfl, rfl, by simp [hlen]⟩⟩
      · obtain ⟨rfl, rfl⟩ := performs_ret hret
        exact ⟨some c :: answers, by simp, .inr ⟨rfl, List.mem_cons_of_mem _ hmem⟩⟩

/-- What `xmodem_recv_block` hands out for a block. -/
def Block.received (b : Block) : Received := ⟨b.num, b.data, b.size⟩

theorem blockIn_eq_none {header : Option UInt8} {answers : List (Option UInt8)}
    (h : ∀ b : Block, answers ≠ b.wire.map some) : blockIn header answers = none := by
  cases hb : blockIn header answers with
  | none => rfl
  | some b => exact absurd (blockIn_eq_some.mp hb).2 (h b)

theorem blockIn_eq_none_of_mem {header : Option UInt8} {answers : List (Option UInt8)}
    (h : none ∈ answers) : blockIn header answers = none := by
  apply blockIn_eq_none
  rintro b rfl
  simp at h

theorem wire_eq {bn bi ch cl : UInt8} {data : List UInt8} {b : Block}
    (h : some bn :: some bi :: data.map some ++ [some ch, some cl] = b.wire.map some) :
    bn = b.num ∧ bi = ~~~b.num ∧ data = b.data ∧
      ch = UInt8.ofNat ((lineCrc b.data).toNat / 256) ∧ cl = UInt8.ofNat (lineCrc b.data).toNat := by
  have hbytes : bn :: bi :: data ++ [ch, cl] = b.wire := by
    apply List.map_injective_iff.mpr (Option.some_injective _)
    simpa using h
  obtain ⟨rfl, rfl, htail⟩ : bn = b.num ∧ bi = ~~~b.num ∧ data ++ [ch, cl] = b.data ++
      [UInt8.ofNat ((lineCrc b.data).toNat / 256), UInt8.ofNat (lineCrc b.data).toNat] := by
    simpa [Block.wire] using hbytes
  obtain ⟨rfl, hcrc⟩ := List.append_inj' htail rfl
  simpa using hcrc

/-- The check on a block number. -/
theorem complement_iff (bn bi : UInt8) : bn ^^^ bi = 0xFF ↔ bi = ~~~bn := by
  constructor
  · intro h
    calc bi = bn ^^^ (bn ^^^ bi) := by rw [← UInt8.xor_assoc, UInt8.xor_self, UInt8.zero_xor]
      _ = bn ^^^ -1 := by rw [h]; rfl
      _ = ~~~bn := UInt8.xor_neg_one
  · rintro rfl
    rw [← UInt8.xor_neg_one, ← UInt8.xor_assoc, UInt8.xor_self]
    rfl

theorem recvBlock_cases {hdr : UInt8} {res : Except Int32 Received}
    (hhdr : isBlock (some hdr) = true) (h : Performs (xmodemRecvBlock hdr) es res) :
    ∃ answers, es = answers.map byteRead ∧
      ((∃ b : Block, res = .ok b.received ∧ blockIn (some hdr) answers = some b) ∨
        (∃ err, res = .error err ∧ blockIn (some hdr) answers = none)) := by
  obtain ⟨bn, fs, rfl, hbn⟩ := performs_command h
  obtain ⟨bi, fs, rfl, hbi⟩ := performs_command hbn
  cases bn with
  | none =>
    obtain ⟨rfl, rfl⟩ := performs_ret hbi
    exact ⟨[none, bi], rfl, .inr ⟨_, rfl, blockIn_eq_none_of_mem (by simp)⟩⟩
  | some bn =>
  cases bi with
  | none =>
    obtain ⟨rfl, rfl⟩ := performs_ret hbi
    exact ⟨[some bn, none], rfl, .inr ⟨_, rfl, blockIn_eq_none_of_mem (by simp)⟩⟩
  | some bi =>
  dsimp only at hbi
  split_ifs at hbi with hcomp
  · obtain ⟨rfl, rfl⟩ := performs_ret hbi
    have hshort : ∀ b : Block, [some bn, some bi] ≠ b.wire.map some := by
      intro b hb
      simp [Block.wire] at hb
    exact ⟨[some bn, some bi], rfl, .inr ⟨_, rfl, blockIn_eq_none hshort⟩⟩
  · obtain ⟨data?, gs, hs, rfl, hdata, hrest⟩ := performs_bind hbi
    obtain ⟨answers, rfl, ⟨data, rfl, rfl, hlen⟩ | ⟨rfl, hmem⟩⟩ := recvExact_cases hdata
    · obtain ⟨ch, gs, rfl, hch⟩ := performs_command hrest
      obtain ⟨cl, gs, rfl, hcl⟩ := performs_command hch
      cases ch with
      | none =>
        obtain ⟨rfl, rfl⟩ := performs_ret hcl
        exact ⟨some bn :: some bi :: data.map some ++ [none, cl], by simp, .inr ⟨_, rfl,
          blockIn_eq_none_of_mem (by simp)⟩⟩
      | some ch =>
      cases cl with
      | none =>
        obtain ⟨rfl, rfl⟩ := performs_ret hcl
        exact ⟨some bn :: some bi :: data.map some ++ [some ch, none], by simp, .inr ⟨_, rfl,
          blockIn_eq_none_of_mem (by simp)⟩⟩
      | some cl =>
      dsimp only at hcl
      split_ifs at hcl with hcrc
      · obtain ⟨rfl, rfl⟩ := performs_ret hcl
        refine ⟨some bn :: some bi :: data.map some ++ [some ch, some cl], by simp, .inr ⟨_, rfl,
          blockIn_eq_none fun b hb => hcrc ?_⟩⟩
        obtain ⟨rfl, rfl, rfl, hbytes⟩ := wire_eq hb
        exact (crc_bytes ch cl _).mpr hbytes
      · obtain ⟨rfl, rfl⟩ := performs_ret hcl
        have hsize : data.length = 128 ∨ data.length = 1024 := by
          rw [hlen]
          unfold blockSize
          split <;> decide
        let b : Block := ⟨bn, data, hsize⟩
        have hheader : hdr = b.header := by
          simp only [b, Block.header, hlen]
          simp only [isBlock, Option.some.injEq, decide_eq_true_eq] at hhdr
          rcases hhdr with rfl | rfl <;> decide
        obtain ⟨rfl, rfl⟩ := (crc_bytes ch cl data).mp (not_not.mp hcrc)
        obtain rfl := (complement_iff bn bi).mp (not_not.mp hcomp)
        have hwire : some bn :: some (~~~bn) :: data.map some ++ [some (UInt8.ofNat
            ((lineCrc data).toNat / 256)), some (UInt8.ofNat (lineCrc data).toNat)] =
            b.wire.map some := by simp [b, Block.wire]
        refine ⟨_, by simp, .inl ⟨b, ?_, blockIn_eq_some.mpr ⟨congrArg some hheader, hwire⟩⟩⟩
        rw [Block.received, b.size_eq, ← hheader]
    · obtain ⟨rfl, rfl⟩ := performs_ret hrest
      exact ⟨some bn :: some bi :: answers, by simp, .inr ⟨_, rfl,
        blockIn_eq_none_of_mem (by simp [hmem])⟩⟩

/-! ## One turn -/

theorem flush_cases {silent : Bool} (h : Performs (xmodemFlush fuel) es silent) :
    ∃ answers : List (Option UInt8), es = answers.map flushRead := by
  induction fuel generalizing es with
  | zero =>
    obtain ⟨rfl, rfl⟩ := performs_ret h
    exact ⟨[], rfl⟩
  | succ fuel ih =>
    obtain ⟨c, fs, rfl, hc⟩ := performs_command h
    cases c with
    | none =>
      obtain ⟨rfl, rfl⟩ := performs_ret hc
      exact ⟨[none], rfl⟩
    | some c =>
      obtain ⟨answers, rfl⟩ := ih hc
      exact ⟨some c :: answers, rfl⟩

/-- What happens after a header that brought no block worth keeping: silence is waited for,
and at most single bytes go out. -/
def Idle (es : List Event) : Prop :=
  ∃ (answers : List (Option UInt8)) (replies : List UInt8), (∀ c ∈ replies, c ≠ XMODEM_CCHAR) ∧
    es = answers.map flushRead ++ replies.map said

abbrev abortReplies : List UInt8 := [XMODEM_CAN, XMODEM_CAN, XMODEM_CAN, 0x08, 0x08, 0x08]

theorem abort_cases {α : Type} {a b : α} (h : Performs (xmodemAbort >>= fun _ => pure a) es b) :
    es = abortReplies.map said ∧ b = a := by
  obtain ⟨⟨⟩, fs, rfl, h₁⟩ := performs_call h
  obtain ⟨⟨⟩, fs, rfl, h₂⟩ := performs_call h₁
  obtain ⟨⟨⟩, fs, rfl, h₃⟩ := performs_call h₂
  obtain ⟨⟨⟩, fs, rfl, h₄⟩ := performs_call h₃
  obtain ⟨⟨⟩, fs, rfl, h₅⟩ := performs_call h₄
  obtain ⟨⟨⟩, fs, rfl, h₆⟩ := performs_call h₅
  obtain ⟨rfl, rfl⟩ := performs_ret h₆
  exact ⟨rfl, rfl⟩

/-- A turn that keeps nothing: it goes on with one retry less, or gives up. -/
def Refused {σ : Type} (nakCount : ℕ) (err : Int32) (again : ℕ → σ) (nx : Next σ) : Prop :=
  (nakCount + 1 < XMODEM_MAX_RETRIES ∧ nx = .again (again (nakCount + 1))) ∨
    (XMODEM_MAX_RETRIES ≤ nakCount + 1 ∧ nx = .done err) ∨ nx = .running

theorem refuse_cases {σ : Type} {nakCount : ℕ} {err : Int32} {again : ℕ → σ} {nx : Next σ}
    (h : Performs (refuse fuel nakCount err again) es nx) :
    Idle es ∧ Refused nakCount err again nx := by
  obtain ⟨silent, fs, gs, rfl, hflush, hrest⟩ := performs_bind h
  obtain ⟨answers, rfl⟩ := flush_cases hflush
  cases silent with
  | false =>
    obtain ⟨rfl, rfl⟩ := performs_ret hrest
    exact ⟨⟨answers, [], by simp, rfl⟩, .inr (.inr rfl)⟩
  | true =>
    obtain ⟨⟨⟩, fs, rfl, hnak⟩ := performs_command hrest
    split_ifs at hnak with hretries
    · obtain ⟨rfl, rfl⟩ := abort_cases hnak
      exact ⟨⟨answers, XMODEM_NAK :: abortReplies, by decide +kernel, rfl⟩,
        .inr (.inl ⟨hretries, rfl⟩)⟩
    · obtain ⟨rfl, rfl⟩ := performs_ret hnak
      exact ⟨⟨answers, [XMODEM_NAK], by decide +kernel, rfl⟩,
        .inl ⟨Nat.lt_of_not_le hretries, rfl⟩⟩

namespace Idle

theorem of_replies {replies : List UInt8} (h : ∀ c ∈ replies, c ≠ XMODEM_CCHAR) :
    Idle (replies.map said) := ⟨[], replies, h, rfl⟩

theorem inner (h : Idle es) : ∀ e ∈ es, Inner e := by
  obtain ⟨answers, replies, hreplies, rfl⟩ := h
  intro e he
  rcases List.mem_append.mp he with he | he
  · obtain ⟨c, -, rfl⟩ := List.mem_map.mp he
    exact inner_flushRead c
  · obtain ⟨c, hc, rfl⟩ := List.mem_map.mp he
    exact inner_said (hreplies c hc)

theorem byteAnswers (h : Idle es) : es.filterMap byteAnswer? = [] := by
  obtain ⟨answers, replies, -, rfl⟩ := h
  simp [List.filterMap_map, Function.comp_def, byteAnswer?]

theorem stores (h : Idle es) : stores es = [] := by
  obtain ⟨answers, replies, -, rfl⟩ := h
  simp [Xmodem.stores, List.filterMap_map, Function.comp_def, store?]

end Idle

/-- The events of a turn that reads for a block. -/
structure ReadsBlock (t : Turn) (answers : List (Option UInt8)) (rest : List Event) : Prop where
  events : t.events = answers.map byteRead ++ rest
  inner : ∀ e ∈ rest, Inner e
  byteAnswers : rest.filterMap byteAnswer? = []

namespace ReadsBlock

variable {t : Turn} {answers : List (Option UInt8)} {rest : List Event}

theorem of_idle (header : Option UInt8) (answers : List (Option UInt8)) (h : Idle rest) :
    ReadsBlock ⟨header, answers.map byteRead ++ rest⟩ answers rest :=
  ⟨rfl, h.inner, h.byteAnswers⟩

theorem all_inner (h : ReadsBlock t answers rest) : ∀ e ∈ t.events, Inner e := by
  intro e he
  rw [h.events] at he
  rcases List.mem_append.mp he with he | he
  · obtain ⟨c, -, rfl⟩ := List.mem_map.mp he
    exact inner_byteRead c
  · exact h.inner e he

theorem block_eq (h : ReadsBlock t answers rest) : t.block = blockIn t.header answers := by
  rw [Turn.block, h.events, List.filterMap_append, h.byteAnswers]
  simp [List.filterMap_map, Function.comp_def, byteAnswer?]

theorem stores_eq (h : ReadsBlock t answers rest) : t.stores = stores rest := by
  rw [Turn.stores, h.events, stores, List.filterMap_append]
  simp [List.filterMap_map, Function.comp_def, store?, stores]

theorem replies_eq (h : ReadsBlock t answers rest) : t.replies = rest.filterMap reply? := by
  rw [Turn.replies, h.events, List.filterMap_append]
  simp [List.filterMap_map, Function.comp_def, reply?]

end ReadsBlock

/-- What a turn of the first loop can be, and how it ends. -/
inductive OpeningTurn (maxLen : UInt32) (st : Opening) :
    Turn → Next (Opening ⊕ Receiver) → Prop
  | refused (t nx) (hheader : isBlock t.header = true) (hblock : t.block = none)
      (hstores : t.stores = []) (hnext : Refused st.nakCount XMODEM_ERR_NAK
        (fun nak => .inl { st with nakCount := nak }) nx) : OpeningTurn maxLen st t nx
  | misnumbered (t b) (hblock : t.block = some b) (hnum : b.num ≠ 1) (hstores : t.stores = []) :
      OpeningTurn maxLen st t (.done XMODEM_ERR_SEQ)
  | tooLarge (t b) (hblock : t.block = some b) (hnum : b.num = 1) (hfit : maxLen < b.size)
      (hstores : t.stores = []) : OpeningTurn maxLen st t (.done XMODEM_ERR_OVERFLOW)
  | taken (t b) (hblock : t.block = some b) (hnum : b.num = 1) (hfit : b.size ≤ maxLen)
      (hstores : t.stores = [(0, b.data)]) (hreplies : t.replies = [XMODEM_ACK]) :
      OpeningTurn maxLen st t (.again (.inr ⟨b.size, 2, 0, st.canCount⟩))
  | cancel (hcount : st.canCount + 1 < 2) : OpeningTurn maxLen st ⟨some XMODEM_CAN, []⟩
      (.again (.inl { st with canCount := st.canCount + 1 }))
  | cancelled (hcount : 2 ≤ st.canCount + 1) : OpeningTurn maxLen st ⟨some XMODEM_CAN, []⟩
      (.done XMODEM_ERR_ABORT)
  | other (c) (hblock : isBlock c = false) (hcancel : c ≠ some XMODEM_CAN) :
      OpeningTurn maxLen st ⟨c, []⟩ (.again (.inl { st with canCount := 0 }))

/-- What a turn of the second loop can be, and how it ends. -/
inductive ReceiverTurn (maxLen : UInt32) (st : Receiver) : Turn → Next Receiver → Prop
  | finished (t) (hheader : t.header = some XMODEM_EOT) (hstores : t.stores = []) :
      ReceiverTurn maxLen st t (.done st.received.toInt32)
  | cancel (hcount : st.canCount + 1 < 2) : ReceiverTurn maxLen st ⟨some XMODEM_CAN, []⟩
      (.again { st with canCount := st.canCount + 1 })
  | cancelled (hcount : 2 ≤ st.canCount + 1) : ReceiverTurn maxLen st ⟨some XMODEM_CAN, []⟩
      (.done XMODEM_ERR_ABORT)
  | refused (t nx err) (hheader : t.header ≠ some XMODEM_CAN) (hblock : t.block = none)
      (herr : err = XMODEM_ERR_TIMEOUT ∨ err = XMODEM_ERR_NAK)
      (hstores : t.stores = []) (hnext : Refused st.nakCount err
        (fun nak => { st with nakCount := nak, canCount := 0 }) nx) : ReceiverTurn maxLen st t nx
  | repeated (t b) (hblock : t.block = some b) (hnum : b.num = st.expected - 1)
      (hstores : t.stores = []) (hreplies : t.replies = [XMODEM_ACK]) :
      ReceiverTurn maxLen st t (.again { st with canCount := 0 })
  | misnumbered (t b) (hblock : t.block = some b) (hrepeat : b.num ≠ st.expected - 1)
      (hnum : b.num ≠ st.expected) (hstores : t.stores = []) :
      ReceiverTurn maxLen st t (.done XMODEM_ERR_SEQ)
  | tooLarge (t b) (hblock : t.block = some b) (hnum : b.num = st.expected)
      (hfit : maxLen < st.received + b.size) (hstores : t.stores = []) :
      ReceiverTurn maxLen st t (.done XMODEM_ERR_OVERFLOW)
  | taken (t b) (hblock : t.block = some b) (hnum : b.num = st.expected)
      (hfit : st.received + b.size ≤ maxLen) (hstores : t.stores = [(st.received, b.data)])
      (hreplies : t.replies = [XMODEM_ACK]) :
      ReceiverTurn maxLen st t (.again ⟨st.received + b.size, st.expected + 1, 0, 0⟩)

theorem idle_abort : Idle (abortReplies.map said) := Idle.of_replies (by decide +kernel)

theorem idle_ack : Idle ([XMODEM_ACK].map said) := Idle.of_replies (by decide +kernel)

theorem readsBlock_taken (header : Option UInt8) (answers : List (Option UInt8)) (off : UInt32)
    (data : List UInt8) : ReadsBlock
      ⟨header, answers.map byteRead ++ [stored off data, said XMODEM_ACK]⟩ answers
      [stored off data, said XMODEM_ACK] := by
  refine ⟨rfl, ?_, rfl⟩
  intro e he
  rcases List.mem_cons.mp he with rfl | he
  · exact inner_stored off data
  · obtain rfl := List.mem_singleton.mp he
    exact inner_said (by decide)

theorem openingTurn_cases {st : Opening} {nx : Next (Opening ⊕ Receiver)}
    (h : Performs (openingTurn fuel maxLen st) es nx) : ∃ t : Turn,
      es = said XMODEM_CCHAR :: headerRead t.header :: t.events ∧ (∀ e ∈ t.events, Inner e) ∧
        OpeningTurn maxLen st t nx := by
  obtain ⟨⟨⟩, fs, rfl, hpoll⟩ := performs_command h
  obtain ⟨c, fs, rfl, hc⟩ := performs_command hpoll
  split_ifs at hc with hblock hcancel hcount
  · obtain ⟨hdr, rfl⟩ : ∃ hdr, c = some hdr := by
      cases c with
      | none => cases hblock
      | some hdr => exact ⟨hdr, rfl⟩
    obtain ⟨res, fs, gs, rfl, hrecv, hrest⟩ := performs_bind hc
    refine ⟨⟨some hdr, fs ++ gs⟩, rfl, ?_⟩
    obtain ⟨answers, rfl, ⟨b, rfl, hb⟩ | ⟨err, rfl, hb⟩⟩ := recvBlock_cases hblock hrecv
    · dsimp only [Block.received] at hrest
      split_ifs at hrest with hnum hfit
      · obtain ⟨rfl, rfl⟩ := abort_cases hrest
        have hread := ReadsBlock.of_idle (some hdr) answers idle_abort
        exact ⟨hread.all_inner, .misnumbered _ b (hread.block_eq.trans hb) hnum
          (hread.stores_eq.trans idle_abort.stores)⟩
      · obtain ⟨rfl, rfl⟩ := abort_cases hrest
        have hread := ReadsBlock.of_idle (some hdr) answers idle_abort
        exact ⟨hread.all_inner, .tooLarge _ b (hread.block_eq.trans hb) (not_not.mp hnum) hfit
          (hread.stores_eq.trans idle_abort.stores)⟩
      · obtain ⟨⟨⟩, gs, rfl, hstore⟩ := performs_command hrest
        obtain ⟨⟨⟩, gs, rfl, hack⟩ := performs_command hstore
        obtain ⟨rfl, rfl⟩ := performs_ret hack
        have hread := readsBlock_taken (some hdr) answers 0 b.data
        exact ⟨hread.all_inner, .taken _ b (hread.block_eq.trans hb) (not_not.mp hnum)
          (UInt32.not_lt.mp hfit) hread.stores_eq hread.replies_eq⟩
    · obtain ⟨hidle, hnext⟩ := refuse_cases hrest
      have hread := ReadsBlock.of_idle (some hdr) answers hidle
      exact ⟨hread.all_inner, .refused _ nx hblock (hread.block_eq.trans hb)
        (hread.stores_eq.trans hidle.stores) hnext⟩
  · obtain ⟨rfl, rfl⟩ := performs_ret hc
    subst hcancel
    exact ⟨⟨some XMODEM_CAN, []⟩, rfl, by simp, .cancelled hcount⟩
  · obtain ⟨rfl, rfl⟩ := performs_ret hc
    subst hcancel
    exact ⟨⟨some XMODEM_CAN, []⟩, rfl, by simp, .cancel (Nat.lt_of_not_le hcount)⟩
  · obtain ⟨rfl, rfl⟩ := performs_ret hc
    exact ⟨⟨c, []⟩, rfl, by simp, .other c (Bool.eq_false_of_not_eq_true hblock) hcancel⟩

theorem block_eq_none_of_header {t : Turn} (h : isBlock t.header = false) : t.block = none := by
  cases hb : t.block with
  | none => rfl
  | some b =>
    have hheader := (blockIn_eq_some.mp hb).1
    rw [hheader, b.isBlock_header] at h
    cases h

/-- A header that starts nothing. -/
theorem receiverTurn_noise {st : Receiver} {nx : Next Receiver} {c : Option UInt8} {err : Int32}
    (hblock : isBlock c = false) (hcancel : c ≠ some XMODEM_CAN)
    (herr : err = XMODEM_ERR_TIMEOUT ∨ err = XMODEM_ERR_NAK)
    (h : Performs (refuse fuel st.nakCount err
      fun nak => { st with nakCount := nak, canCount := 0 }) es nx) : ∃ t : Turn,
      headerRead c :: es = headerRead t.header :: t.events ∧ (∀ e ∈ t.events, Inner e) ∧
        ReceiverTurn maxLen st t nx := by
  obtain ⟨hidle, hnext⟩ := refuse_cases h
  exact ⟨⟨c, es⟩, rfl, hidle.inner, .refused _ nx err hcancel (block_eq_none_of_header hblock)
    herr hidle.stores hnext⟩

theorem receiverTurn_cases {st : Receiver} {nx : Next Receiver}
    (h : Performs (receiverTurn fuel maxLen st) es nx) : ∃ t : Turn,
      es = headerRead t.header :: t.events ∧ (∀ e ∈ t.events, Inner e) ∧
        ReceiverTurn maxLen st t nx := by
  obtain ⟨c, fs, rfl, hc⟩ := performs_command h
  split_ifs at hc with hfinished hcancel hcount hblock hsilent
  · obtain ⟨⟨⟩, gs, rfl, hack⟩ := performs_command hc
    obtain ⟨rfl, rfl⟩ := performs_ret hack
    exact ⟨⟨c, _⟩, rfl, idle_ack.inner, .finished _ hfinished idle_ack.stores⟩
  · obtain ⟨rfl, rfl⟩ := performs_ret hc
    subst hcancel
    exact ⟨⟨some XMODEM_CAN, []⟩, rfl, by simp, .cancelled hcount⟩
  · obtain ⟨rfl, rfl⟩ := performs_ret hc
    subst hcancel
    exact ⟨⟨some XMODEM_CAN, []⟩, rfl, by simp, .cancel (Nat.lt_of_not_le hcount)⟩
  · exact receiverTurn_noise (Bool.eq_false_of_not_eq_true' hblock) hcancel (.inl rfl) hc
  · exact receiverTurn_noise (Bool.eq_false_of_not_eq_true' hblock) hcancel (.inr rfl) hc
  · obtain ⟨hdr, rfl⟩ : ∃ hdr, c = some hdr := by
      cases c with
      | none => simp [isBlock] at hblock
      | some hdr => exact ⟨hdr, rfl⟩
    obtain ⟨res, fs, gs, rfl, hrecv, hrest⟩ := performs_bind hc
    refine ⟨⟨some hdr, fs ++ gs⟩, rfl, ?_⟩
    obtain ⟨answers, rfl, ⟨b, rfl, hb⟩ | ⟨err, rfl, hb⟩⟩ :=
      recvBlock_cases (by simpa using hblock) hrecv
    · dsimp only [Block.received] at hrest
      split_ifs at hrest with hrepeat hnum hfit
      · obtain ⟨⟨⟩, gs, rfl, hack⟩ := performs_command hrest
        obtain ⟨rfl, rfl⟩ := performs_ret hack
        have hread := ReadsBlock.of_idle (some hdr) answers idle_ack
        exact ⟨hread.all_inner, .repeated _ b (hread.block_eq.trans hb) hrepeat
          (hread.stores_eq.trans idle_ack.stores) hread.replies_eq⟩
      · obtain ⟨rfl, rfl⟩ := abort_cases hrest
        have hread := ReadsBlock.of_idle (some hdr) answers idle_abort
        exact ⟨hread.all_inner, .misnumbered _ b (hread.block_eq.trans hb) hrepeat hnum
          (hread.stores_eq.trans idle_abort.stores)⟩
      · obtain ⟨rfl, rfl⟩ := abort_cases hrest
        have hread := ReadsBlock.of_idle (some hdr) answers idle_abort
        exact ⟨hread.all_inner, .tooLarge _ b (hread.block_eq.trans hb) (not_not.mp hnum) hfit
          (hread.stores_eq.trans idle_abort.stores)⟩
      · obtain ⟨⟨⟩, gs, rfl, hstore⟩ := performs_command hrest
        obtain ⟨⟨⟩, gs, rfl, hack⟩ := performs_command hstore
        obtain ⟨rfl, rfl⟩ := performs_ret hack
        have hread := readsBlock_taken (some hdr) answers st.received b.data
        exact ⟨hread.all_inner, .taken _ b (hread.block_eq.trans hb) (not_not.mp hnum)
          (UInt32.not_lt.mp hfit) hread.stores_eq hread.replies_eq⟩
    · obtain ⟨hidle, hnext⟩ := refuse_cases hrest
      have hread := ReadsBlock.of_idle (some hdr) answers hidle
      refine ⟨hread.all_inner, .refused _ nx _ hcancel (hread.block_eq.trans hb) ?_
        (hread.stores_eq.trans hidle.stores) hnext⟩
      split
      · exact .inl rfl
      · exact .inr rfl

/-! ## A whole run -/

/-- The turns of the second loop, and the result unless it is still running. -/
inductive ReceiverRun (maxLen : UInt32) : Receiver → List Turn → Option Int32 → Prop
  | pause (st) : ReceiverRun maxLen st [] none
  | again (st t st' ts o) (hturn : ReceiverTurn maxLen st t (.again st'))
      (hrun : ReceiverRun maxLen st' ts o) : ReceiverRun maxLen st (t :: ts) o
  | done (st t r) (hturn : ReceiverTurn maxLen st t (.done r)) :
      ReceiverRun maxLen st [t] (some r)
  | running (st t) (hturn : ReceiverTurn maxLen st t .running) : ReceiverRun maxLen st [t] none

/-- The turns of both loops, from the first one on. -/
inductive OpeningRun (maxLen : UInt32) : Opening → List Turn → Option Int32 → Prop
  | exhausted (st) : OpeningRun maxLen st [] (some XMODEM_ERR_TIMEOUT)
  | again (st t st' ts o) (hturn : OpeningTurn maxLen st t (.again (.inl st')))
      (hrun : OpeningRun maxLen st' ts o) : OpeningRun maxLen st (t :: ts) o
  | opened (st t st' ts o) (hturn : OpeningTurn maxLen st t (.again (.inr st')))
      (hrun : ReceiverRun maxLen st' ts o) : OpeningRun maxLen st (t :: ts) o
  | done (st t r) (hturn : OpeningTurn maxLen st t (.done r)) : OpeningRun maxLen st [t] (some r)
  | running (st t) (hturn : OpeningTurn maxLen st t .running) : OpeningRun maxLen st [t] none

theorem receiverLoop_run {n : ℕ} {st : Receiver} {o : Option Int32}
    (h : Performs (receiverLoop fuel maxLen n st) es o) :
    Opens es ∧ ReceiverRun maxLen st (turns es) o := by
  induction n generalizing st es with
  | zero =>
    obtain ⟨rfl, rfl⟩ := performs_ret h
    exact ⟨rfl, .pause st⟩
  | succ n ih =>
    obtain ⟨nx, fs, gs, rfl, hturn, hrest⟩ := performs_bind h
    obtain ⟨t, rfl, hinner, ht⟩ := receiverTurn_cases hturn
    cases nx with
    | again st' =>
      obtain ⟨hopens, hrun⟩ := ih hrest
      have hcut := cut_turn t.header hinner hopens
      exact ⟨congrArg Prod.fst hcut, by
        rw [turns, hcut]
        exact .again st t st' _ o ht hrun⟩
    | done r =>
      obtain ⟨rfl, rfl⟩ := performs_ret hrest
      have hcut := cut_turn t.header hinner (show Opens [] from rfl)
      exact ⟨congrArg Prod.fst hcut, by
        rw [turns, hcut]
        exact .done st t r ht⟩
    | running =>
      obtain ⟨rfl, rfl⟩ := performs_ret hrest
      have hcut := cut_turn t.header hinner (show Opens [] from rfl)
      exact ⟨congrArg Prod.fst hcut, by
        rw [turns, hcut]
        exact .running st t ht⟩

theorem openingLoop_run {tries : ℕ} {st : Opening} {o : Option Int32}
    (h : Performs (openingLoop fuel maxLen tries st) es o) :
    Opens es ∧ OpeningRun maxLen st (turns es) o := by
  induction tries generalizing st es with
  | zero =>
    obtain ⟨rfl, rfl⟩ := performs_ret h
    exact ⟨rfl, .exhausted st⟩
  | succ tries ih =>
    obtain ⟨nx, fs, gs, rfl, hturn, hrest⟩ := performs_bind h
    obtain ⟨t, rfl, hinner, ht⟩ := openingTurn_cases hturn
    have hpoll : ∀ rest, Opens rest → cut (said XMODEM_CCHAR :: headerRead t.header :: t.events ++
        rest) = ([], t :: turns rest) := by
      intro rest hrest
      rw [List.cons_append, turns_poll]
      exact cut_turn t.header hinner hrest
    cases nx with
    | again next =>
      cases next with
      | inl st' =>
        obtain ⟨hopens, hrun⟩ := ih hrest
        exact ⟨congrArg Prod.fst (hpoll gs hopens), by
          rw [turns, hpoll gs hopens]
          exact .again st t st' _ o ht hrun⟩
      | inr st' =>
        obtain ⟨hopens, hrun⟩ := receiverLoop_run hrest
        exact ⟨congrArg Prod.fst (hpoll gs hopens), by
          rw [turns, hpoll gs hopens]
          exact .opened st t st' _ o ht hrun⟩
    | done r =>
      obtain ⟨rfl, rfl⟩ := performs_ret hrest
      exact ⟨congrArg Prod.fst (hpoll [] rfl), by
        rw [turns, hpoll [] rfl]
        exact .done st t r ht⟩
    | running =>
      obtain ⟨rfl, rfl⟩ := performs_ret hrest
      exact ⟨congrArg Prod.fst (hpoll [] rfl), by
        rw [turns, hpoll [] rfl]
        exact .running st t ht⟩

/-- Every run of the receiver is a run of its turns. -/
theorem receive_run {o : Option Int32} (h : Performs (xmodemReceive fuel maxLen) es o) :
    Opens es ∧ OpeningRun maxLen ⟨0, 0⟩ (turns es) o :=
  openingLoop_run h

end BekenCam.Xmodem
