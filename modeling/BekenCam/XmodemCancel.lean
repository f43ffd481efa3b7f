import BekenCam.XmodemRuns

/-!
# Cancelling a transfer

The sender gives up with two `CAN` in a row where a header is read. The second loop
sees exactly these. The first one forgets to start over at a block, so there a
`CAN` before some blocks and one behind them count as a pair, too.
-/
namespace BekenCam.Xmodem

open Prog

/-- A `CAN` that comes where a header is read. -/
abbrev cancelRead : ℕ × Option UInt8 := (XMODEM_TIMEOUT_PACKET_MS, some XMODEM_CAN)

/-- Two of them with no other read in between. -/
def Cancels (rs : List (ℕ × Option UInt8)) : Prop := [cancelRead, cancelRead] <:+: rs

def startsWithCancel : List Turn → Prop
  | [] => False
  | t :: _ => t.header = some XMODEM_CAN

/-- One or more blocks and then a `CAN`, where only the last block may be intact. -/
def blocksThenCancel : List Turn → Prop
  | [] => False
  | t :: ts => isBlock t.header = true ∧
      (startsWithCancel ts ∨ (t.block = none ∧ blocksThenCancel ts))

/-- Somewhere before the first intact block is over a `CAN` is followed by one or more blocks
and then by another `CAN`. -/
def Bridged : List Turn → Prop
  | [] => False
  | t :: ts => t.block = none ∧
      ((t.header = some XMODEM_CAN ∧ blocksThenCancel ts) ∨ Bridged ts)

/-! ## Reads and turns -/

/-- No read inside a turn is one for a header. -/
def Quiet (t : Turn) : Prop := ∀ r ∈ reads t.events, r.1 ≠ XMODEM_TIMEOUT_PACKET_MS

def readsOf (ts : List Turn) : List (ℕ × Option UInt8) :=
  ts.flatMap fun t => (XMODEM_TIMEOUT_PACKET_MS, t.header) :: reads t.events

theorem cut_quiet (es : List Event) :
    (∀ r ∈ reads (cut es).1, r.1 ≠ XMODEM_TIMEOUT_PACKET_MS) ∧ ∀ t ∈ turns es, Quiet t := by
  induction es with
  | nil => exact ⟨List.forall_mem_nil _, List.forall_mem_nil _⟩
  | cons e es ih =>
    obtain ⟨hlead, hturns⟩ := ih
    obtain ⟨c, a⟩ := e
    rw [turns, cut_cons]
    cases c with
    | getc timeoutMs =>
      rw [gather]
      split_ifs with h
      · refine ⟨List.forall_mem_nil _, fun t ht => ?_⟩
        rcases List.mem_cons.mp ht with rfl | ht
        · exact hlead
        · exact hturns t ht
      · refine ⟨fun r hr => ?_, hturns⟩
        rcases List.mem_cons.mp hr with rfl | hr
        · exact h
        · exact hlead r hr
    | putc c =>
      rw [gather]
      split_ifs with h
      · exact ⟨hlead, hturns⟩
      · exact ⟨hlead, hturns⟩
    | memcpy off data => exact ⟨hlead, hturns⟩

theorem not_cancels_nil : ¬Cancels [] := by
  intro h
  simpa using h.length_le

/-- Reads that are not of the kind do not matter. -/
theorem cancels_append {rs rs' : List (ℕ × Option UInt8)} (h : ∀ r ∈ rs, r ≠ cancelRead) :
    Cancels (rs ++ rs') ↔ Cancels rs' := by
  induction rs with
  | nil => rfl
  | cons r rs ih =>
    have hne := h r List.mem_cons_self
    rw [Cancels, List.cons_append, List.infix_cons_iff, List.cons_prefix_cons]
    rw [Cancels] at ih
    rw [ih fun r' hr' => h r' (List.mem_cons_of_mem _ hr')]
    exact or_iff_right fun hp => hne hp.1.symm

theorem cancels_other {t : Turn} {ts : List Turn} (hquiet : Quiet t)
    (hheader : t.header ≠ some XMODEM_CAN) : Cancels (readsOf (t :: ts)) ↔ Cancels (readsOf ts) := by
  have hreads : readsOf (t :: ts) =
      ((XMODEM_TIMEOUT_PACKET_MS, t.header) :: reads t.events) ++ readsOf ts := rfl
  rw [hreads]
  refine cancels_append fun r hr => ?_
  rcases List.mem_cons.mp hr with rfl | hr
  · exact fun h => hheader (congrArg Prod.snd h)
  · exact fun h => hquiet r hr (congrArg Prod.fst h)

theorem cancels_cancel (ts : List Turn) : Cancels (readsOf (⟨some XMODEM_CAN, []⟩ :: ts)) ↔
    startsWithCancel ts ∨ Cancels (readsOf ts) := by
  have hreads : readsOf (⟨some XMODEM_CAN, []⟩ :: ts) = cancelRead :: readsOf ts := rfl
  have hfirst : [cancelRead] <+: readsOf ts ↔ startsWithCancel ts := by
    cases ts with
    | nil => simp [readsOf, startsWithCancel]
    | cons t ts => simp [readsOf, startsWithCancel, List.cons_prefix_cons, eq_comm]
  rw [hreads, Cancels, List.infix_cons_iff, List.cons_prefix_cons, hfirst]
  simp [Cancels]

/-! ## The second loop -/

/-- The turns behind a `CAN` that is already counted, and without one. -/
def counted (canCount : ℕ) (ts : List Turn) : List Turn :=
  if canCount = 0 then ts else ⟨some XMODEM_CAN, []⟩ :: ts

theorem counted_zero (ts : List Turn) : counted 0 ts = ts := rfl

theorem counted_one (ts : List Turn) : counted 1 ts = ⟨some XMODEM_CAN, []⟩ :: ts := rfl

/-- The lengths that are received are no errors. -/
theorem ne_abort_of_dvd {n : UInt32} (h : 128 ∣ n.toNat) : n.toInt32 ≠ XMODEM_ERR_ABORT := by
  intro heq
  have hn : n.toNat = 2 ^ 32 - 4 := congrArg (fun r : Int32 => r.toUInt32.toNat) heq
  omega

theorem dvd_add_size {n : UInt32} (h : 128 ∣ n.toNat) (b : Block) :
    128 ∣ (n + b.size).toNat := by
  rw [UInt32.toNat_add, b.toNat_size]
  rcases b.hsize with hsize | hsize <;> rw [hsize] <;> omega

theorem header_ne_cancel {t : Turn} {b : Block} (h : t.block = some b) :
    t.header ≠ some XMODEM_CAN := by
  rw [(blockIn_eq_some.mp h).1]
  unfold Block.header
  split <;> decide

theorem cancels_counted_other {t : Turn} {ts : List Turn} {canCount : ℕ} (hquiet : Quiet t)
    (hheader : t.header ≠ some XMODEM_CAN) :
    Cancels (readsOf (counted canCount (t :: ts))) ↔ Cancels (readsOf ts) := by
  unfold counted
  split
  · exact cancels_other hquiet hheader
  · rw [cancels_cancel, cancels_other hquiet hheader]
    exact or_iff_right hheader

theorem not_cancels_counted_nil (canCount : ℕ) : ¬Cancels (readsOf (counted canCount [])) := by
  unfold counted
  split
  · exact not_cancels_nil
  · rw [cancels_cancel]
    exact not_or.mpr ⟨id, not_cancels_nil⟩

/-- How a turn of the second loop counts. -/
theorem receiverTurn_cancel {maxLen : UInt32} {st : Receiver} {t : Turn} {nx : Next Receiver}
    (h : ReceiverTurn maxLen st t nx) (hcount : st.canCount ≤ 1)
    (hreceived : 128 ∣ st.received.toNat) :
    (t = ⟨some XMODEM_CAN, []⟩ ∧ ((st.canCount = 0 ∧ nx = .again { st with canCount := 1 }) ∨
      (st.canCount = 1 ∧ nx = .done XMODEM_ERR_ABORT))) ∨
    (t.header ≠ some XMODEM_CAN ∧ nx ≠ .done XMODEM_ERR_ABORT ∧
      ∀ st', nx = .again st' → st'.canCount = 0 ∧ 128 ∣ st'.received.toNat) := by
  cases h with
  | cancel hlt =>
    have hzero : st.canCount = 0 := by omega
    exact .inl ⟨rfl, .inl ⟨hzero, by rw [hzero]⟩⟩
  | cancelled hle => exact .inl ⟨rfl, .inr ⟨by omega, rfl⟩⟩
  | finished _ hheader hstores =>
    refine .inr ⟨by rw [hheader]; decide, ?_, fun st' h => by cases h⟩
    intro h
    exact ne_abort_of_dvd hreceived (Next.done.inj h)
  | refused _ _ err hheader hblock herr hstores hnext =>
    refine .inr ⟨hheader, ?_⟩
    rcases hnext with ⟨-, rfl⟩ | ⟨-, rfl⟩ | rfl
    · refine ⟨fun h => (by cases h), fun st' h => ?_⟩
      cases h
      exact ⟨rfl, hreceived⟩
    · refine ⟨fun h => ?_, fun st' h => by cases h⟩
      rcases herr with rfl | rfl <;> exact absurd (Next.done.inj h) (by decide)
    · exact ⟨fun h => (by cases h), fun st' h => (by cases h)⟩
  | repeated _ b hblock hnum hstores hreplies =>
    refine .inr ⟨header_ne_cancel hblock, fun h => (by cases h), fun st' h => ?_⟩
    cases h
    exact ⟨rfl, hreceived⟩
  | misnumbered _ b hblock hrepeat hnum hstores =>
    exact .inr ⟨header_ne_cancel hblock, fun h => absurd (Next.done.inj h) (by decide),
      fun st' h => by cases h⟩
  | tooLarge _ b hblock hnum hfit hstores =>
    exact .inr ⟨header_ne_cancel hblock, fun h => absurd (Next.done.inj h) (by decide),
      fun st' h => by cases h⟩
  | taken _ b hblock hnum hfit hstores hreplies =>
    refine .inr ⟨header_ne_cancel hblock, fun h => (by cases h), fun st' h => ?_⟩
    cases h
    exact ⟨rfl, dvd_add_size hreceived b⟩

theorem receiverRun_cancel {maxLen : UInt32} {st : Receiver} {ts : List Turn} {o : Option Int32}
    (h : ReceiverRun maxLen st ts o) (hquiet : ∀ t ∈ ts, Quiet t) (hcount : st.canCount ≤ 1)
    (hreceived : 128 ∣ st.received.toNat) :
    o = some XMODEM_ERR_ABORT ↔ Cancels (readsOf (counted st.canCount ts)) := by
  induction h with
  | pause st => exact iff_of_false (fun h => by cases h) (not_cancels_counted_nil _)
  | again st t st' ts o hturn hrun ih =>
    obtain ⟨ht, hts⟩ := List.forall_mem_cons.mp hquiet
    rcases receiverTurn_cancel hturn hcount hreceived with
      ⟨rfl, ⟨hzero, hnext⟩ | ⟨-, hnext⟩⟩ | ⟨hheader, -, hnext⟩
    · cases hnext
      rw [ih hts (by simp) hreceived, hzero]
      rfl
    · cases hnext
    · obtain ⟨hzero, hreceived'⟩ := hnext st' rfl
      rw [ih hts (by omega) hreceived', hzero, cancels_counted_other ht hheader]
      rfl
  | done st t r hturn =>
    have ht := hquiet t (List.mem_singleton_self t)
    rcases receiverTurn_cancel hturn hcount hreceived with
      ⟨rfl, ⟨-, hnext⟩ | ⟨hone, hnext⟩⟩ | ⟨hheader, hnext, -⟩
    · cases hnext
    · cases hnext
      rw [hone, counted_one, cancels_cancel]
      exact iff_of_true rfl (.inl rfl)
    · rw [cancels_counted_other ht hheader]
      exact iff_of_false (fun h => hnext (congrArg Next.done (Option.some.inj h))) not_cancels_nil
  | running st t hturn =>
    have ht := hquiet t (List.mem_singleton_self t)
    rcases receiverTurn_cancel hturn hcount hreceived with
      ⟨rfl, ⟨-, hnext⟩ | ⟨-, hnext⟩⟩ | ⟨hheader, -, -⟩
    · cases hnext
    · cases hnext
    · rw [cancels_counted_other ht hheader]
      exact iff_of_false (fun h => by cases h) not_cancels_nil

/-- A second `CAN` in a row ends the second loop. -/
theorem receiverRun_ends {maxLen : UInt32} {st : Receiver} {ts : List Turn} {o : Option Int32}
    (h : ReceiverRun maxLen st ts o) (hcount : st.canCount = 1)
    (hreceived : 128 ∣ st.received.toNat) (hstart : startsWithCancel ts) :
    ts = [⟨some XMODEM_CAN, []⟩] := by
  cases h with
  | pause => cases hstart
  | again _ t st' ts _ hturn hrun =>
    rcases receiverTurn_cancel hturn (by omega) hreceived with
      ⟨rfl, ⟨hzero, -⟩ | ⟨-, hnext⟩⟩ | ⟨hheader, -, -⟩
    · omega
    · cases hnext
    · exact absurd hstart hheader
  | done _ t r hturn =>
    rcases receiverTurn_cancel hturn (by omega) hreceived with ⟨rfl, -⟩ | ⟨hheader, -, -⟩
    · rfl
    · exact absurd hstart hheader
  | running _ t hturn =>
    rcases receiverTurn_cancel hturn (by omega) hreceived with ⟨rfl, -⟩ | ⟨hheader, -, -⟩
    · rfl
    · exact absurd hstart hheader

/-! ## The first loop -/

/-- What is to be shown of a run of the first loop with `canCount` already counted. -/
structure Judged (canCount : ℕ) (ts : List Turn) (o : Option Int32) : Prop where
  aborts : o = some XMODEM_ERR_ABORT ↔
    Cancels (readsOf (counted canCount ts)) ∨ Bridged (counted canCount ts)
  not_both : ¬(Cancels (readsOf (counted canCount ts)) ∧ Bridged (counted canCount ts))
  ends : canCount = 1 → startsWithCancel ts → ts = [⟨some XMODEM_CAN, []⟩]

theorem bridged_cancel (ts : List Turn) :
    Bridged (⟨some XMODEM_CAN, []⟩ :: ts) ↔ blocksThenCancel ts ∨ Bridged ts := by
  have hblock : (⟨some XMODEM_CAN, []⟩ : Turn).block = none :=
    block_eq_none_of_header (by decide)
  rw [Bridged]
  exact ⟨fun h => h.2.imp_left And.right, fun h => ⟨hblock, h.imp_left fun hb => ⟨rfl, hb⟩⟩⟩

theorem bridged_other {t : Turn} (ts : List Turn) (hblock : t.block = none)
    (hheader : t.header ≠ some XMODEM_CAN) : Bridged (t :: ts) ↔ Bridged ts := by
  rw [Bridged]
  exact ⟨fun h => h.2.resolve_left fun hc => hheader hc.1, fun h => ⟨hblock, .inr h⟩⟩

theorem header_ne_cancel_of_isBlock {t : Turn} (h : isBlock t.header = true) :
    t.header ≠ some XMODEM_CAN := by
  intro heq
  rw [heq] at h
  cases h

namespace Judged

variable {canCount : ℕ} {t : Turn} {ts : List Turn} {o : Option Int32}

theorem nil (h : o ≠ some XMODEM_ERR_ABORT) : Judged canCount [] o := by
  have hbridged : ¬Bridged (counted canCount []) := by
    unfold counted
    split
    · exact id
    · rw [bridged_cancel]
      exact not_or.mpr ⟨id, id⟩
  exact ⟨iff_of_false h (not_or.mpr ⟨not_cancels_counted_nil _, hbridged⟩),
    fun hboth => hbridged hboth.2, fun _ hstart => hstart.elim⟩

/-- The count survives a damaged block. -/
theorem damaged (hcount : canCount ≤ 1) (hquiet : Quiet t) (hheader : isBlock t.header = true)
    (hblock : t.block = none) (h : Judged canCount ts o) : Judged canCount (t :: ts) o := by
  have hne := header_ne_cancel_of_isBlock hheader
  have hbridged := bridged_other ts hblock hne
  have hcancels : Cancels (readsOf (counted canCount (t :: ts))) ↔ Cancels (readsOf ts) :=
    cancels_counted_other hquiet hne
  rcases Nat.le_one_iff_eq_zero_or_eq_one.mp hcount with rfl | rfl
  · refine ⟨?_, ?_, fun _ hstart => absurd hstart hne⟩
    · rw [hcancels, counted_zero, hbridged]
      exact h.aborts
    · rw [hcancels, counted_zero, hbridged]
      exact h.not_both
  · have hafter : blocksThenCancel (t :: ts) ↔ startsWithCancel ts ∨ blocksThenCancel ts := by
      rw [blocksThenCancel]
      exact ⟨fun hb => hb.2.imp_right And.right,
        fun hb => ⟨hheader, hb.imp_right fun hb => ⟨hblock, hb⟩⟩⟩
    have haborts := h.aborts
    have hnot := h.not_both
    have hends := h.ends rfl
    rw [counted_one, cancels_cancel, bridged_cancel] at haborts hnot
    have hlast : startsWithCancel ts → ¬Cancels (readsOf ts) := by
      intro hstart
      rw [hends hstart, cancels_cancel]
      exact not_or.mpr ⟨id, not_cancels_nil⟩
    refine ⟨?_, ?_, fun _ hstart => absurd hstart hne⟩
    · rw [hcancels, counted_one, bridged_cancel, hbridged, hafter, haborts, or_or_or_comm,
        ← or_assoc, or_comm (a := startsWithCancel ts ∨ _), or_assoc]
    · rw [hcancels, counted_one, bridged_cancel, hbridged, hafter]
      intro ⟨hc, hcase⟩
      rcases hcase with (hstart | hb) | hr
      · exact hlast hstart hc
      · exact hnot ⟨.inr hc, .inl hb⟩
      · exact hnot ⟨.inr hc, .inr hr⟩

/-- Anything but a block and a `CAN` starts the count over. -/
theorem other (hquiet : Quiet t) (hheader : isBlock t.header = false)
    (hne : t.header ≠ some XMODEM_CAN) (h : Judged 0 ts o) : Judged canCount (t :: ts) o := by
  have hbridged := bridged_other ts (block_eq_none_of_header hheader) hne
  have hcounted : Bridged (counted canCount (t :: ts)) ↔ Bridged ts := by
    unfold counted
    split
    · exact hbridged
    · rw [bridged_cancel, hbridged]
      refine or_iff_right fun hb => ?_
      rw [blocksThenCancel, hheader] at hb
      cases hb.1
  refine ⟨?_, ?_, fun _ hstart => absurd hstart hne⟩
  · rw [cancels_counted_other hquiet hne, hcounted]
    exact h.aborts
  · rw [cancels_counted_other hquiet hne, hcounted]
    exact h.not_both

/-- Behind the first intact block only the second loop counts. -/
theorem intact {b : Block} (hcount : canCount ≤ 1) (hquiet : Quiet t) (hblock : t.block = some b)
    (h : o = some XMODEM_ERR_ABORT ↔ Cancels (readsOf (counted canCount ts)))
    (hends : canCount = 1 → startsWithCancel ts → ts = [⟨some XMODEM_CAN, []⟩]) :
    Judged canCount (t :: ts) o := by
  have hne := header_ne_cancel hblock
  have hheader : isBlock t.header = true := by
    rw [(blockIn_eq_some.mp hblock).1]
    exact b.isBlock_header
  have hbridged : ¬Bridged (t :: ts) := by
    rw [Bridged, hblock]
    exact fun hb => by cases hb.1
  rcases Nat.le_one_iff_eq_zero_or_eq_one.mp hcount with rfl | rfl
  · refine ⟨?_, fun hboth => hbridged hboth.2, fun _ hstart => absurd hstart hne⟩
    rw [cancels_counted_other hquiet hne, h]
    exact (or_iff_left hbridged).symm
  · have hafter : blocksThenCancel (t :: ts) ↔ startsWithCancel ts := by
      rw [blocksThenCancel, hblock]
      simp [hheader]
    have hlast : startsWithCancel ts → ¬Cancels (readsOf ts) := by
      intro hstart
      rw [hends rfl hstart, cancels_cancel]
      exact not_or.mpr ⟨id, not_cancels_nil⟩
    rw [counted_one, cancels_cancel] at h
    refine ⟨?_, ?_, fun _ hstart => absurd hstart hne⟩
    · rw [cancels_counted_other hquiet hne, counted_one, bridged_cancel, hafter, h, or_comm,
        or_iff_left hbridged]
    · rw [cancels_counted_other hquiet hne, counted_one, bridged_cancel, hafter]
      intro ⟨hc, hcase⟩
      rcases hcase with hstart | hb
      · exact hlast hstart hc
      · exact hbridged hb

end Judged

/-- The turn that counts the second `CAN`. -/
theorem Judged.cancelled : Judged 1 [⟨some XMODEM_CAN, []⟩] (some XMODEM_ERR_ABORT) := by
  have hcancels : Cancels (readsOf (counted 1 [⟨some XMODEM_CAN, []⟩])) := by
    rw [counted_one, cancels_cancel]
    exact .inl rfl
  have hbridged : ¬Bridged (counted 1 [⟨some XMODEM_CAN, []⟩]) := by
    rw [counted_one, bridged_cancel, bridged_cancel]
    simp [blocksThenCancel, Bridged, isBlock, startsWithCancel]
  exact ⟨iff_of_true rfl (.inl hcancels), fun h => hbridged h.2, fun _ _ => rfl⟩

theorem openingRun_judged {maxLen : UInt32} {st : Opening} {ts : List Turn} {o : Option Int32}
    (h : OpeningRun maxLen st ts o) (hquiet : ∀ t ∈ ts, Quiet t) (hcount : st.canCount ≤ 1) :
    Judged st.canCount ts o := by
  induction h with
  | exhausted st => exact .nil (by decide)
  | again st t st' ts o hturn hrun ih =>
    obtain ⟨ht, hts⟩ := List.forall_mem_cons.mp hquiet
    generalize hnx : (Next.again (.inl st') : Next (Opening ⊕ Receiver)) = nx at hturn
    cases hturn with
    | refused _ _ hheader hblock hstores hnext =>
      rcases hnext with ⟨-, rfl⟩ | ⟨-, rfl⟩ | rfl <;> cases hnx
      exact .damaged hcount ht hheader hblock (ih hts hcount)
    | cancel hlt =>
      cases hnx
      have hzero : st.canCount = 0 := by omega
      have hrest := ih hts (by simp [hzero])
      rw [hzero] at hrest ⊢
      exact ⟨hrest.aborts, hrest.not_both, fun h => by cases h⟩
    | other c hblock hc =>
      cases hnx
      exact .other ht hblock hc (ih hts (Nat.zero_le _))
    | misnumbered | tooLarge | taken | cancelled => cases hnx
  | opened st t st' ts o hturn hrun =>
    obtain ⟨ht, hts⟩ := List.forall_mem_cons.mp hquiet
    generalize hnx : (Next.again (.inr st') : Next (Opening ⊕ Receiver)) = nx at hturn
    cases hturn with
    | refused _ _ hheader hblock hstores hnext =>
      rcases hnext with ⟨-, rfl⟩ | ⟨-, rfl⟩ | rfl <;> cases hnx
    | taken _ b hblock hnum hfit hstores hreplies =>
      cases hnx
      have hreceived : 128 ∣ b.size.toNat := by
        have hsum := dvd_add_size (n := 0) (by decide) b
        rwa [UInt32.zero_add] at hsum
      exact .intact hcount ht hblock (receiverRun_cancel hrun hts hcount hreceived)
        fun hone hstart => receiverRun_ends hrun hone hreceived hstart
    | misnumbered | tooLarge | cancel | cancelled | other => cases hnx
  | done st t r hturn =>
    have ht := hquiet t (List.mem_singleton_self t)
    have hlast : ∀ {b : Block} {r : Int32}, t.block = some b → r ≠ XMODEM_ERR_ABORT →
        Judged st.canCount [t] (some r) := by
      intro b r hblock hr
      refine .intact hcount ht hblock ?_ fun _ hstart => hstart.elim
      exact iff_of_false (fun h => hr (Option.some.inj h)) (not_cancels_counted_nil _)
    generalize hnx : (Next.done r : Next (Opening ⊕ Receiver)) = nx at hturn
    cases hturn with
    | refused _ _ hheader hblock hstores hnext =>
      rcases hnext with ⟨-, rfl⟩ | ⟨-, rfl⟩ | rfl <;> cases hnx
      exact .damaged hcount ht hheader hblock (.nil (by decide))
    | misnumbered _ b hblock hnum hstores =>
      cases hnx
      exact hlast hblock (by decide)
    | tooLarge _ b hblock hnum hfit hstores =>
      cases hnx
      exact hlast hblock (by decide)
    | cancelled hle =>
      cases hnx
      have hone : st.canCount = 1 := by omega
      rw [hone]
      exact .cancelled
    | taken | cancel | other => cases hnx
  | running st t hturn =>
    have ht := hquiet t (List.mem_singleton_self t)
    cases hturn with
    | refused _ _ hheader hblock hstores hnext =>
      exact .damaged hcount ht hheader hblock (.nil (by decide))

/-- The receiver reports a cancelled transfer exactly when it should, unless a `CAN` in the
opening phase is followed by blocks and another `CAN`. -/
theorem abort_iff_cancelled {fuel : ℕ} {maxLen : UInt32} {es : List Event} {o : Option Int32}
    (h : Performs (xmodemReceive fuel maxLen) es o) :
    (o = some XMODEM_ERR_ABORT ↔ [cancelRead, cancelRead] <:+: reads es) ↔
      ¬Bridged (turns es) := by
  obtain ⟨hopens, hrun⟩ := receive_run h
  have hjudged := openingRun_judged hrun (cut_quiet es).2 (Nat.zero_le _)
  have haborts := hjudged.aborts
  have hnot := hjudged.not_both
  rw [counted_zero] at haborts hnot
  have hreads : Cancels (reads es) ↔ Cancels (readsOf (turns es)) := by
    rw [reads_eq_turns hopens]
    rfl
  rw [show [cancelRead, cancelRead] <:+: reads es ↔ Cancels (readsOf (turns es)) from hreads,
    haborts]
  constructor
  · intro heq hbridged
    exact hnot ⟨heq.mp (.inr hbridged), hbridged⟩
  · intro hbridged
    exact or_iff_left hbridged

/-- A line that has some answers in store, and is silent after them. -/
def line : Handler XmodemCmd XmodemCmd.Answer (List (Option UInt8))
  | .getc _, [] => (none, [])
  | .getc _, c :: cs => (c, cs)
  | .putc _, cs => ((), cs)
  | .memcpy _ _, cs => ((), cs)

def cancelTrace : List Event :=
  [said XMODEM_CCHAR, headerRead (some XMODEM_CAN), said XMODEM_CCHAR,
    headerRead (some XMODEM_CAN)]

theorem abort_iff_cancelled_two :
    (some XMODEM_ERR_ABORT = some XMODEM_ERR_ABORT ↔
      [cancelRead, cancelRead] <:+: reads cancelTrace) ↔ ¬Bridged (turns cancelTrace) := by
  have hrun : Performs (xmodemReceive 1 128) cancelTrace (some XMODEM_ERR_ABORT) :=
    performs_events line (xmodemReceive 1 128) [some XMODEM_CAN, some XMODEM_CAN]
  exact abort_iff_cancelled hrun

/-- A `CAN`, a block that breaks off, and another `CAN`. -/
def brokenTrace : List Event :=
  [said XMODEM_CCHAR, headerRead (some XMODEM_CAN), said XMODEM_CCHAR,
    headerRead (some XMODEM_SOH), byteRead none, byteRead none, flushRead none, said XMODEM_NAK,
    said XMODEM_CCHAR, headerRead (some XMODEM_CAN)]

theorem abort_without_pair :
    ¬∀ (fuel : ℕ) (maxLen : UInt32) (es : List Event) (o : Option Int32),
      Performs (xmodemReceive fuel maxLen) es o →
        (o = some XMODEM_ERR_ABORT ↔ [cancelRead, cancelRead] <:+: reads es) := by
  intro h
  have hrun : Performs (xmodemReceive 1 128) brokenTrace (some XMODEM_ERR_ABORT) :=
    performs_events line (xmodemReceive 1 128)
      [some XMODEM_CAN, some XMODEM_SOH, none, none, none, some XMODEM_CAN]
  have hpair : ¬[cancelRead, cancelRead] <:+: reads brokenTrace := by decide
  exact hpair ((h 1 128 brokenTrace _ hrun).mp rfl)

end BekenCam.Xmodem
