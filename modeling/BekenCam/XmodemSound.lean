import BekenCam.ByteBuffer
import BekenCam.XmodemRuns

/-!
# What a transfer leaves in the buffer

The receiver keeps a block when it carries the next number. What it has kept
is a function of the turns alone, and the buffer holds exactly that. The test
for room adds in 32 bits, so it can only be trusted for a buffer that ends at
least one block before the 32 bits do.
-/
namespace BekenCam.Xmodem

open Prog

/-- The number the block after the kept ones carries. -/
def nextNum (kept : List Block) : UInt8 := UInt8.ofNat (kept.length + 1)

/-- Keep the block of a turn if it carries the next number. -/
def keep (kept : List Block) (t : Turn) : List Block :=
  match t.block with
  | some b => if b.num = nextNum kept then kept ++ [b] else kept
  | none => kept

/-- The blocks kept after some turns. -/
def keptIn (ts : List Turn) : List Block := ts.foldl keep []

def payload (kept : List Block) : List UInt8 := kept.flatMap Block.data

/-- The buffer after the copies of a trace. -/
def bufferAfter (buf : List UInt8) (es : List Event) : List UInt8 :=
  (stores es).foldl (fun buf w => writeAt buf w.1.toNat w.2) buf

/-- `b` carries the number of the block kept last. -/
def IsRepeat (kept : List Block) (b : Block) : Prop :=
  kept ≠ [] ∧ b.num = UInt8.ofNat kept.length

/-- What a receiver owes its caller, whatever came over the line. -/
structure Sound (maxLen : UInt32) (es : List Event) (o : Option Int32) : Prop where
  /-- nothing is copied past the buffer -/
  inBounds : ∀ w ∈ stores es, w.1.toNat + w.2.length ≤ maxLen.toNat
  /-- a turn without an intact block copies nothing -/
  damaged : ∀ t ∈ turns es, t.block = none → t.stores = []
  /-- the block kept last is acknowledged when it comes again, and not copied -/
  repeated : ∀ before t after b, turns es = before ++ t :: after → t.block = some b →
    IsRepeat (keptIn before) b → t.stores = [] ∧ t.replies = [XMODEM_ACK]
  /-- on success every intact block was the next one or a repeat -/
  intact : ∀ r, o = some r → 0 ≤ r → ∀ before t after b, turns es = before ++ t :: after →
    t.block = some b → b.num = nextNum (keptIn before) ∨ IsRepeat (keptIn before) b
  /-- the blocks kept are numbered from one -/
  numbered : ∀ (i : ℕ) b, (keptIn (turns es))[i]? = some b → b.num = UInt8.ofNat (i + 1)
  /-- on success the buffer starts with what was kept, and the result is its length -/
  received : ∀ r, o = some r → 0 ≤ r → r.toInt = (payload (keptIn (turns es))).length ∧
    ∀ buf : List UInt8, buf.length = maxLen.toNat →
      (bufferAfter buf es).take r.toInt.toNat = payload (keptIn (turns es))

/-! ## One turn -/

section Keep

variable {kept : List Block} {t : Turn} {b : Block}

theorem keep_of_none (h : t.block = none) : keep kept t = kept := by
  rw [keep, h]

theorem keep_of_next (h : t.block = some b) (hnum : b.num = nextNum kept) :
    keep kept t = kept ++ [b] := by
  rw [keep, h]
  exact if_pos hnum

theorem keep_of_ne (h : t.block = some b) (hnum : b.num ≠ nextNum kept) :
    keep kept t = kept := by
  rw [keep, h]
  exact if_neg hnum

/-- The number after the last one is another number. -/
theorem IsRepeat.ne_next (h : IsRepeat kept b) : b.num ≠ nextNum kept := by
  rw [h.2, nextNum]
  intro heq
  have hnat := congrArg UInt8.toNat heq
  rw [UInt8.toNat_ofNat', UInt8.toNat_ofNat'] at hnat
  omega

theorem payload_append : payload (kept ++ [b]) = payload kept ++ b.data := by
  simp [payload]

end Keep

/-- What every turn owes the caller when it starts with `kept`. -/
structure TurnSound (maxLen : UInt32) (kept : List Block) (t : Turn) : Prop where
  stores : t.stores = [] ∨ ∃ b, t.block = some b ∧ b.num = nextNum kept ∧
    t.stores = [(UInt32.ofNat (payload kept).length, b.data)] ∧
      (payload kept).length + b.data.length ≤ maxLen.toNat
  repeated : ∀ b, t.block = some b → IsRepeat kept b → t.stores = [] ∧ t.replies = [XMODEM_ACK]

/-- The block of a turn was copied as the next one, or is a repeat. -/
def Settled (kept : List Block) (t : Turn) : Prop :=
  ∀ b, t.block = some b → (b.num = nextNum kept ∧
    t.stores = [(UInt32.ofNat (payload kept).length, b.data)]) ∨ IsRepeat kept b

theorem Settled.of_none {kept : List Block} {t : Turn} (h : t.block = none) : Settled kept t := by
  intro b hb
  rw [h] at hb
  cases hb

/-- The state of the second loop when the blocks `kept` are in the buffer. -/
structure Holds (maxLen : UInt32) (kept : List Block) (st : Receiver) : Prop where
  ne_nil : kept ≠ []
  received : st.received.toNat = (payload kept).length
  expected : st.expected = nextNum kept
  fits : (payload kept).length ≤ maxLen.toNat

namespace Holds

variable {maxLen : UInt32} {kept : List Block} {st : Receiver} {t : Turn} {b : Block}

theorem isRepeat_iff (h : Holds maxLen kept st) : IsRepeat kept b ↔ b.num = st.expected - 1 := by
  have hprev : nextNum kept - 1 = UInt8.ofNat kept.length := by
    rw [nextNum, UInt8.ofNat_add]
    exact UInt8.add_sub_cancel (UInt8.ofNat kept.length) 1
  rw [h.expected, hprev]
  exact and_iff_right h.ne_nil

/-- The next block, when there is room for it. -/
theorem room (h : Holds maxLen kept st) (hmax : maxLen.toNat < 2 ^ 32 - 1024)
    (hfit : st.received + b.size ≤ maxLen) :
    (st.received + b.size).toNat = (payload kept).length + b.data.length ∧
      (payload kept).length + b.data.length ≤ maxLen.toNat := by
  have hlen := b.length_le
  have hfits := h.fits
  have hsum : (st.received + b.size).toNat = (payload kept).length + b.data.length := by
    rw [UInt32.toNat_add, h.received, b.toNat_size, Nat.mod_eq_of_lt (by omega)]
  exact ⟨hsum, hsum ▸ UInt32.le_iff_toNat_le.mp hfit⟩

/-- Counters other than those of the buffer do not matter. -/
theorem of_eq {st' : Receiver} (h : Holds maxLen kept st) (hreceived : st'.received = st.received)
    (hexpected : st'.expected = st.expected) : Holds maxLen kept st' :=
  ⟨h.ne_nil, hreceived ▸ h.received, hexpected ▸ h.expected, h.fits⟩

end Holds

theorem TurnSound.of_none {maxLen : UInt32} {kept : List Block} {t : Turn} (h : t.block = none)
    (hstores : t.stores = []) : TurnSound maxLen kept t := by
  refine ⟨.inl hstores, fun b hb => ?_⟩
  rw [h] at hb
  cases hb

theorem TurnSound.of_not_repeat {maxLen : UInt32} {kept : List Block} {t : Turn} {b : Block}
    (h : t.block = some b) (hnum : ¬IsRepeat kept b) (hstores : t.stores = []) :
    TurnSound maxLen kept t := by
  refine ⟨.inl hstores, fun b' hb hrepeat => ?_⟩
  rw [h] at hb
  exact absurd (Option.some.inj hb ▸ hrepeat) hnum

/-- A length that is not taken for an error is itself. -/
theorem toInt_of_nonneg {n : UInt32} (h : 0 ≤ n.toInt32) : n.toInt32.toInt = n.toNat := by
  have hpos : (0 : ℤ) ≤ n.toBitVec.toInt := Int32.le_iff_toInt_le.mp h
  have hlt := n.toBitVec.isLt
  show n.toBitVec.toInt = (n.toBitVec.toNat : ℤ)
  rw [BitVec.toInt_eq_toNat_cond] at hpos ⊢
  split_ifs at hpos ⊢ <;> omega

/-- How a turn from a state that holds `kept` leaves things. -/
structure TurnOutcome (maxLen : UInt32) (kept : List Block) (t : Turn) (nx : Next Receiver) :
    Prop where
  sound : TurnSound maxLen kept t
  again : ∀ st', nx = .again st' → Settled kept t ∧ Holds maxLen (keep kept t) st'
  done : ∀ r, nx = .done r → 0 ≤ r →
    Settled kept t ∧ keep kept t = kept ∧ r.toInt = (payload kept).length

/-- A turn that copies its block as the next one. -/
theorem TurnOutcome.of_taken {maxLen : UInt32} {kept : List Block} {t : Turn} {b : Block}
    {st' : Receiver} (hblock : t.block = some b) (hnum : b.num = nextNum kept)
    (hstores : t.stores = [(UInt32.ofNat (payload kept).length, b.data)])
    (hreceived : st'.received.toNat = (payload kept).length + b.data.length)
    (hexpected : st'.expected = nextNum (kept ++ [b]))
    (hfits : (payload kept).length + b.data.length ≤ maxLen.toNat) :
    TurnOutcome maxLen kept t (.again st') := by
  have hkeep := keep_of_next hblock hnum
  refine ⟨⟨.inr ⟨b, hblock, hnum, hstores, hfits⟩, ?_⟩, ?_, ?_⟩
  · intro b' hb hrepeat
    obtain rfl := Option.some.inj (hblock.symm.trans hb)
    exact absurd hnum hrepeat.ne_next
  · intro st'' hnext
    cases hnext
    refine ⟨fun b' hb => ?_, ?_⟩
    · obtain rfl := Option.some.inj (hblock.symm.trans hb)
      exact .inl ⟨hnum, hstores⟩
    · rw [hkeep]
      refine ⟨by simp, ?_, hexpected, ?_⟩
      · rw [payload_append, List.length_append, hreceived]
      · rw [payload_append, List.length_append]
        exact hfits
  · intro r hr
    cases hr

/-- A turn that ends the run without success. -/
theorem TurnOutcome.of_failed {maxLen : UInt32} {kept : List Block} {t : Turn} {r : Int32}
    (h : TurnSound maxLen kept t) (hr : ¬0 ≤ r) : TurnOutcome maxLen kept t (.done r) := by
  refine ⟨h, fun st' hst => ?_, fun r' hr' hpos => ?_⟩
  · cases hst
  · cases hr'
    exact absurd hpos hr

/-- A turn that keeps nothing and only counts. -/
theorem TurnOutcome.of_again {maxLen : UInt32} {kept : List Block} {t : Turn} {st' : Receiver}
    (h : TurnSound maxLen kept t) (hsettled : Settled kept t) (hkeep : keep kept t = kept)
    (hst : Holds maxLen kept st') : TurnOutcome maxLen kept t (.again st') := by
  refine ⟨h, fun st'' hst'' => ?_, fun r hr => ?_⟩
  · cases hst''
    exact ⟨hsettled, hkeep.symm ▸ hst⟩
  · cases hr

theorem TurnOutcome.of_refused {maxLen : UInt32} {kept : List Block} {t : Turn} {st : Receiver}
    {nx : Next Receiver} {err : Int32} (hst : Holds maxLen kept st) (hblock : t.block = none)
    (herr : err = XMODEM_ERR_TIMEOUT ∨ err = XMODEM_ERR_NAK) (hstores : t.stores = [])
    (hnext : Refused st.nakCount err (fun nak => { st with nakCount := nak, canCount := 0 }) nx) :
    TurnOutcome maxLen kept t nx := by
  have hsound : TurnSound maxLen kept t := .of_none hblock hstores
  rcases hnext with ⟨-, rfl⟩ | ⟨-, rfl⟩ | rfl
  · exact .of_again hsound (.of_none hblock) (keep_of_none hblock) (hst.of_eq rfl rfl)
  · refine .of_failed hsound ?_
    rcases herr with rfl | rfl <;> decide
  · refine ⟨hsound, fun st' h => ?_, fun r h => ?_⟩ <;> cases h

theorem receiverTurn_outcome {maxLen : UInt32} (hmax : maxLen.toNat < 2 ^ 32 - 1024)
    {kept : List Block} {st : Receiver} {t : Turn} {nx : Next Receiver}
    (hst : Holds maxLen kept st) (h : ReceiverTurn maxLen st t nx) :
    TurnOutcome maxLen kept t nx := by
  have hcancel : (⟨some XMODEM_CAN, []⟩ : Turn).block = none := block_eq_none_of_header (by decide)
  cases h with
  | finished _ hheader hstores =>
    have hblock : t.block = none := block_eq_none_of_header (by rw [hheader]; decide)
    refine ⟨.of_none hblock hstores, fun st' h => ?_, fun r hr hpos => ?_⟩
    · cases h
    · cases hr
      refine ⟨.of_none hblock, keep_of_none hblock, ?_⟩
      rw [toInt_of_nonneg hpos, hst.received]
  | cancel hcount =>
    exact .of_again (.of_none hcancel rfl) (.of_none hcancel) (keep_of_none hcancel)
      (hst.of_eq rfl rfl)
  | cancelled hcount => exact .of_failed (.of_none hcancel rfl) (by decide)
  | refused _ _ err hheader hblock herr hstores hnext =>
    exact .of_refused hst hblock herr hstores hnext
  | repeated _ b hblock hnum hstores hreplies =>
    have hrepeat : IsRepeat kept b := hst.isRepeat_iff.mpr hnum
    refine .of_again ⟨.inl hstores, fun _ _ _ => ⟨hstores, hreplies⟩⟩ ?_
      (keep_of_ne hblock hrepeat.ne_next) (hst.of_eq rfl rfl)
    intro b' hb
    obtain rfl := Option.some.inj (hblock.symm.trans hb)
    exact .inr hrepeat
  | misnumbered _ b hblock hrepeat hnum hstores =>
    have hnot : ¬IsRepeat kept b := fun h => hrepeat (hst.isRepeat_iff.mp h)
    exact .of_failed (.of_not_repeat hblock hnot hstores) (by decide)
  | tooLarge _ b hblock hnum hfit hstores =>
    have hnot : ¬IsRepeat kept b := fun h => h.ne_next (hnum.trans hst.expected)
    exact .of_failed (.of_not_repeat hblock hnot hstores) (by decide)
  | taken _ b hblock hnum hfit hstores hreplies =>
    obtain ⟨hsum, hroom⟩ := hst.room hmax hfit
    have hoff : st.received = UInt32.ofNat (payload kept).length := by
      rw [← hst.received, UInt32.ofNat_toNat]
    refine .of_taken hblock (hnum.trans hst.expected) (hoff ▸ hstores) hsum ?_ hroom
    rw [hst.expected, nextNum, nextNum, List.length_append]
    exact (UInt8.ofNat_add _ 1).symm

/-! ## A whole run -/

/-- A run each of whose turns does what it owes, from the blocks `kept` on. -/
inductive SoundRun (maxLen : UInt32) (o : Option Int32) : List Block → List Turn → Prop
  | nil (kept) (hresult : ∀ r, o = some r → 0 ≤ r → r.toInt = (payload kept).length) :
      SoundRun maxLen o kept []
  | cons (kept t ts) (hturn : TurnSound maxLen kept t)
      (hsettled : ∀ r, o = some r → 0 ≤ r → Settled kept t)
      (hrest : SoundRun maxLen o (keep kept t) ts) : SoundRun maxLen o kept (t :: ts)

theorem receiverRun_sound {maxLen : UInt32} (hmax : maxLen.toNat < 2 ^ 32 - 1024)
    {kept : List Block} {st : Receiver} {ts : List Turn} {o : Option Int32}
    (hst : Holds maxLen kept st) (h : ReceiverRun maxLen st ts o) : SoundRun maxLen o kept ts := by
  induction h generalizing kept with
  | pause st => exact .nil kept fun r hr => by cases hr
  | again st t st' ts o hturn hrun ih =>
    have hout := receiverTurn_outcome hmax hst hturn
    obtain ⟨hsettled, hholds⟩ := hout.again st' rfl
    exact .cons kept t ts hout.sound (fun _ _ _ => hsettled) (ih hholds)
  | done st t r hturn =>
    have hout := receiverTurn_outcome hmax hst hturn
    refine .cons kept t [] hout.sound (fun r' hr hpos => ?_) (.nil _ fun r' hr hpos => ?_)
    · cases hr
      exact (hout.done r rfl hpos).1
    · cases hr
      obtain ⟨-, hkeep, hlen⟩ := hout.done r rfl hpos
      rw [hkeep, hlen]
  | running st t hturn =>
    have hout := receiverTurn_outcome hmax hst hturn
    refine .cons kept t [] hout.sound (fun r hr => ?_) (.nil _ fun r hr => ?_) <;> cases hr

theorem block_cancel : (⟨some XMODEM_CAN, []⟩ : Turn).block = none :=
  block_eq_none_of_header (by decide)

/-- A run that ends with an error in its only turn. -/
theorem SoundRun.failed {maxLen : UInt32} {t : Turn} {r : Int32} (hturn : TurnSound maxLen [] t)
    (hr : ¬0 ≤ r) : SoundRun maxLen (some r) [] [t] := by
  refine .cons [] t [] hturn (fun r' hr' hpos => ?_) (.nil _ fun r' hr' hpos => ?_)
  · cases hr'
    exact absurd hpos hr
  · cases hr'
    exact absurd hpos hr

/-- A turn without a block, before the first block is kept. -/
theorem SoundRun.idle {maxLen : UInt32} {t : Turn} {ts : List Turn} {o : Option Int32}
    (hblock : t.block = none) (hstores : t.stores = []) (hrest : SoundRun maxLen o [] ts) :
    SoundRun maxLen o [] (t :: ts) := by
  refine .cons [] t ts (.of_none hblock hstores) (fun _ _ _ => .of_none hblock) ?_
  rw [keep_of_none hblock]
  exact hrest

/-- A turn of the first loop before a block is kept. -/
theorem openingRun_sound {maxLen : UInt32} (hmax : maxLen.toNat < 2 ^ 32 - 1024) {st : Opening}
    {ts : List Turn} {o : Option Int32} (h : OpeningRun maxLen st ts o) :
    SoundRun maxLen o [] ts := by
  have hfirst : ∀ b : Block, ¬IsRepeat [] b := fun b h => h.1 rfl
  induction h with
  | exhausted st =>
    refine .nil [] fun r hr hpos => ?_
    cases hr
    exact absurd hpos (by decide)
  | again st t st' ts o hturn hrun ih =>
    cases hturn with
    | refused _ _ hheader hblock hstores hnext => exact .idle hblock hstores ih
    | cancel hcount => exact .idle block_cancel rfl ih
    | other c hblock hc => exact .idle (block_eq_none_of_header hblock) rfl ih
  | opened st t st' ts o hturn hrun =>
    generalize hnx : (Next.again (.inr st') : Next (Opening ⊕ Receiver)) = nx at hturn
    cases hturn with
    | refused _ _ hheader hblock hstores hnext =>
      rcases hnext with ⟨-, rfl⟩ | ⟨-, rfl⟩ | rfl <;> cases hnx
    | taken _ b hblock hnum hfit hstores hreplies =>
      cases hnx
      have hout : TurnOutcome maxLen [] t (.again ⟨b.size, 2, 0, st.canCount⟩) :=
        .of_taken hblock hnum hstores (by simp [payload, b.toNat_size]) rfl
          (by simpa [payload, b.toNat_size] using UInt32.le_iff_toNat_le.mp hfit)
      obtain ⟨hsettled, hholds⟩ := hout.again _ rfl
      exact .cons [] t ts hout.sound (fun _ _ _ => hsettled) (receiverRun_sound hmax hholds hrun)
    | misnumbered | tooLarge | cancel | cancelled | other => cases hnx
  | done st t r hturn =>
    generalize hnx : (Next.done r : Next (Opening ⊕ Receiver)) = nx at hturn
    cases hturn with
    | refused _ _ hheader hblock hstores hnext =>
      rcases hnext with ⟨-, rfl⟩ | ⟨-, rfl⟩ | rfl <;> cases hnx
      exact .failed (.of_none hblock hstores) (by decide)
    | misnumbered _ b hblock hnum hstores =>
      cases hnx
      exact .failed (.of_not_repeat hblock (hfirst b) hstores) (by decide)
    | tooLarge _ b hblock hnum hfit hstores =>
      cases hnx
      exact .failed (.of_not_repeat hblock (hfirst b) hstores) (by decide)
    | cancelled hcount =>
      cases hnx
      exact .failed (.of_none block_cancel rfl) (by decide)
    | taken | cancel | other => cases hnx
  | running st t hturn =>
    cases hturn with
    | refused _ _ hheader hblock hstores hnext =>
      exact .idle hblock hstores (.nil [] fun r hr => by cases hr)

/-- What a turn in the middle of a run owes. -/
theorem SoundRun.middle {maxLen : UInt32} {o : Option Int32} {kept : List Block}
    {before after : List Turn} {t : Turn} (h : SoundRun maxLen o kept (before ++ t :: after)) :
    TurnSound maxLen (before.foldl keep kept) t ∧
      ∀ r, o = some r → 0 ≤ r → Settled (before.foldl keep kept) t := by
  induction before generalizing kept with
  | nil =>
    cases h with
    | cons _ _ _ hturn hsettled hrest => exact ⟨hturn, hsettled⟩
  | cons t' before ih =>
    cases h with
    | cons _ _ _ hturn hsettled hrest => exact ih hrest

theorem numbered_foldl {kept : List Block} (ts : List Turn)
    (h : ∀ i b, kept[i]? = some b → b.num = UInt8.ofNat (i + 1)) (i : ℕ) (b : Block)
    (hb : (ts.foldl keep kept)[i]? = some b) : b.num = UInt8.ofNat (i + 1) := by
  induction ts generalizing kept with
  | nil => exact h i b hb
  | cons t ts ih =>
    refine ih ?_ hb
    intro j b' hb'
    cases hblock : t.block with
    | none =>
      rw [keep_of_none hblock] at hb'
      exact h j b' hb'
    | some c =>
      by_cases hnum : c.num = nextNum kept
      · rw [keep_of_next hblock hnum] at hb'
        rcases Nat.lt_trichotomy j kept.length with hj | rfl | hj
        · rw [List.getElem?_append_left hj] at hb'
          exact h j b' hb'
        · rw [List.getElem?_concat_length] at hb'
          obtain rfl := Option.some.inj hb'
          exact hnum
        · rw [List.getElem?_eq_none (by simp; omega)] at hb'
          cases hb'
      · rw [keep_of_ne hblock hnum] at hb'
        exact h j b' hb'

/-- The buffer of a successful run starts with what was kept. -/
theorem SoundRun.buffer {maxLen : UInt32} {r : Int32} (hr : 0 ≤ r) {kept : List Block}
    {ts : List Turn} (h : SoundRun maxLen (some r) kept ts) {buf : List UInt8}
    (hlen : buf.length = maxLen.toNat) (hfits : (payload kept).length ≤ maxLen.toNat)
    (hbuf : buf.take (payload kept).length = payload kept) :
    r.toInt = (payload (ts.foldl keep kept)).length ∧
      ((ts.flatMap Turn.stores).foldl (fun buf w => writeAt buf w.1.toNat w.2) buf).take
        (payload (ts.foldl keep kept)).length = payload (ts.foldl keep kept) := by
  induction ts generalizing kept buf with
  | nil =>
    cases h with
    | nil _ hresult => exact ⟨hresult r rfl hr, hbuf⟩
  | cons t ts ih =>
    cases h with
    | cons _ _ _ hturn hsettled hrest =>
      rw [List.foldl_cons, List.flatMap_cons, List.foldl_append]
      rcases hturn.stores with hstores | ⟨b, hblock, hnum, hstores, hroom⟩
      · have hkeep : keep kept t = kept := by
          cases hblock : t.block with
          | none => exact keep_of_none hblock
          | some b =>
            rcases hsettled r rfl hr b hblock with ⟨-, hcopied⟩ | hrepeat
            · rw [hstores] at hcopied
              cases hcopied
            · exact keep_of_ne hblock hrepeat.ne_next
        rw [hstores, List.foldl_nil]
        rw [hkeep] at hrest ⊢
        exact ih hrest hlen hfits hbuf
      · have hoff : (UInt32.ofNat (payload kept).length).toNat = (payload kept).length :=
          UInt32.toNat_ofNat_of_lt' (Nat.lt_of_le_of_lt hfits maxLen.toNat_lt)
        rw [hstores, List.foldl_cons, List.foldl_nil]
        dsimp only
        rw [hoff]
        have hkeep := keep_of_next hblock hnum
        refine ih hrest ?_ ?_ ?_
        · rw [length_writeAt_of_le (by omega), hlen]
        · rw [hkeep, payload_append, List.length_append]
          exact hroom
        · rw [hkeep, payload_append, List.length_append, writeAt, hbuf]
          exact List.take_left' (by simp)

/-- Where the 32 bits leave room for one more block than the buffer, the receiver is sound. -/
theorem Sound.of_performs {fuel : ℕ} {maxLen : UInt32} (hmax : maxLen.toNat < 2 ^ 32 - 1024)
    {es : List Event} {o : Option Int32} (h : Performs (xmodemReceive fuel maxLen) es o) :
    Sound maxLen es o := by
  obtain ⟨hopens, hrun⟩ := receive_run h
  have hsound := openingRun_sound hmax hrun
  have hmiddle : ∀ before t after, turns es = before ++ t :: after →
      TurnSound maxLen (keptIn before) t ∧
        ∀ r, o = some r → 0 ≤ r → Settled (keptIn before) t := by
    intro before t after hts
    rw [hts] at hsound
    exact hsound.middle
  have hmem : ∀ t ∈ turns es, ∃ kept, TurnSound maxLen kept t := by
    intro t ht
    obtain ⟨before, after, hts⟩ := List.append_of_mem ht
    exact ⟨keptIn before, (hmiddle before t after hts).1⟩
  refine ⟨?_, ?_, ?_, ?_, ?_, ?_⟩
  · intro w hw
    rw [stores_eq_turns hopens] at hw
    obtain ⟨t, ht, hwt⟩ := List.mem_flatMap.mp hw
    obtain ⟨kept, hturn⟩ := hmem t ht
    rcases hturn.stores with hstores | ⟨b, -, -, hstores, hroom⟩
    · rw [hstores] at hwt
      cases hwt
    · rw [hstores] at hwt
      obtain rfl := List.mem_singleton.mp hwt
      have hoff : (UInt32.ofNat (payload kept).length).toNat ≤ (payload kept).length := by
        rw [UInt32.toNat_ofNat']
        exact Nat.mod_le _ _
      dsimp only
      omega
  · intro t ht hblock
    obtain ⟨kept, hturn⟩ := hmem t ht
    rcases hturn.stores with hstores | ⟨b, hb, -⟩
    · exact hstores
    · rw [hblock] at hb
      cases hb
  · intro before t after b hts hblock hrepeat
    exact (hmiddle before t after hts).1.repeated b hblock hrepeat
  · intro r hr hpos before t after b hts hblock
    rcases (hmiddle before t after hts).2 r hr hpos b hblock with ⟨hnum, -⟩ | hrepeat
    · exact .inl hnum
    · exact .inr hrepeat
  · exact numbered_foldl (turns es) fun i b hb => by cases hb
  · intro r hr hpos
    subst hr
    have hempty : ∀ buf : List UInt8, buf.take (payload []).length = payload [] := fun _ => rfl
    have hbuffer := fun (buf : List UInt8) (hlen : buf.length = maxLen.toNat) =>
      hsound.buffer hpos hlen (Nat.zero_le _) (hempty buf)
    have hresult := (hbuffer (List.replicate maxLen.toNat 0) (by simp)).1
    refine ⟨hresult, fun buf hlen => ?_⟩
    have htoNat : r.toInt.toNat = (payload (keptIn (turns es))).length := by
      rw [hresult]
      rfl
    rw [bufferAfter, stores_eq_turns hopens, htoNat]
    exact (hbuffer buf hlen).2

end BekenCam.Xmodem
