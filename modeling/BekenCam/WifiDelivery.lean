import BekenCam.ApClients
import BekenCam.WifiCounters

/-!
# What becomes of the frames sent

A buffer belongs to one place of `inflight` until it is freed, and a descriptor in use has such a
buffer. A reference belongs to one message of the queue until it is dropped. Each frame comes to one
increment, unless it is in the queue.
-/
namespace BekenCam.WifiTx

open WifiNet Ap

namespace Msg

def ref? : Msg → Option ℕ
  | tx ref _ _ => some ref
  | other => none

def frame? : Msg → Option (UInt8 × List UInt8)
  | tx _ p vifIdx => some (vifIdx, p.bytes)
  | other => none

end Msg

def queuedRefs (q : List Msg) : List ℕ := q.filterMap Msg.ref?
def queuedFrames (q : List Msg) : List (UInt8 × List UInt8) := q.filterMap Msg.frame?

theorem queuedRefs_other (q : List Msg) : queuedRefs (q ++ [.other]) = queuedRefs q := by
  rw [queuedRefs, List.filterMap_append]
  exact List.append_nil _

theorem queuedFrames_other (q : List Msg) : queuedFrames (q ++ [.other]) = queuedFrames q := by
  rw [queuedFrames, List.filterMap_append]
  exact List.append_nil _

/-- The frame went to the peer it is addressed to, as the tables were. -/
def Sent.Addressed (x : Sent) : Prop :=
  x.staid ≠ apNoSta ∧ match x.iface with
    | .sta => x.staid = x.peers.apId x.vifIdx
    | .ap =>
      if x.bytes.headD 0 &&& 0x01 ≠ 0 then x.staid = x.peers.bcmcIdx
      else ∃ clients c, x.peers.clients = some clients ∧ (clients c).state = .assoc ∧
        (clients c).mac.val = x.bytes.take 6 ∧ (clients c).staIdx = x.staid

theorem ifaceFromVif_vif {t : Table} {v : UInt8} {i : IfaceId} (h : ifaceFromVif t v = some i) :
    (t i).vif = v := by
  unfold ifaceFromVif at h
  split_ifs at h with _ hsta hap
  · obtain rfl := Option.some.inj h
    exact hsta.2
  · obtain rfl := Option.some.inj h
    exact hap.2

@[simp] theorem copyPartial_all (p : Pbuf) : p.copyPartial p.totLen 0 = p.bytes := by
  simp [Pbuf.copyPartial, Pbuf.totLen, slice]

/-- The pieces of the descriptor make up the frame again. -/
theorem transmitted_fillHost {p : Pbuf} (hlen : ethHdrLen < p.totLen) (buffer : ℕ)
    (vif staid : UInt8) {mem : List UInt8} (hmem : mem = writeAt
      (List.replicate (txHeadRoom + p.totLen + txTailRoom) 0) txHeadRoom p.bytes) :
    (fillHost buffer mem p.totLen vif staid).transmitted mem = p.bytes := by
  have hread : ∀ off n, off + n ≤ p.bytes.length →
      slice mem (txHeadRoom + off) n = slice p.bytes off n := by
    intro off n hn
    have hsplit : mem = List.replicate txHeadRoom 0 ++ (p.bytes ++ List.replicate txTailRoom 0) := by
      have htail : txHeadRoom + (p.bytes.length + txTailRoom) - (txHeadRoom + p.bytes.length) =
          txTailRoom := by omega
      simp [hmem, writeAt, Pbuf.totLen, Nat.add_assoc, htail]
    have hskip := slice_append_right (a := List.replicate txHeadRoom 0)
      (b := p.bytes ++ List.replicate txTailRoom 0) off n
    rw [List.length_replicate] at hskip
    rw [hsplit, hskip, slice_append_left hn]
  have hbytes : ethHdrLen < p.bytes.length := hlen
  simp only [ethHdrLen] at hbytes
  have hdest : slice mem txHeadRoom 6 = slice p.bytes 0 6 := hread 0 6 (by omega)
  have hpayload : slice p.bytes 14 (p.bytes.length - 14) = p.bytes.drop 14 :=
    List.take_of_length_le (by simp)
  simp only [Host.transmitted, fillHost, ethHdrLen, Pbuf.totLen, hdest, hread 6 6 (by omega),
    hread 12 2 (by omega), hread 14 _ (by omega : 14 + (p.bytes.length - 14) ≤ _), hpayload]
  rw [List.append_assoc, List.append_assoc, ← drop_eq_slice_append p.bytes 12 2,
    ← drop_eq_slice_append p.bytes 6 6, ← drop_eq_slice_append p.bytes 0 6, List.drop_zero]

theorem apTxStaid_client {peers : Peers} {dest : Octets 6} (hsta : apTxStaid peers dest ≠ apNoSta)
    (hdest : dest.val.headD 0 &&& 0x01 = 0) : ∃ clients c, peers.clients = some clients ∧
      (clients c).state = .assoc ∧ (clients c).mac = dest ∧
      (clients c).staIdx = apTxStaid peers dest := by
  unfold apTxStaid at hsta ⊢
  simp only [hdest, ne_eq, not_true, if_false] at hsta ⊢
  cases hclients : peers.clients with
  | none => simp [hclients] at hsta
  | some clients =>
    simp only [hclients] at hsta ⊢
    cases hfind : apClientsFind clients dest with
    | none => simp [hfind] at hsta
    | some c =>
      simp only [hfind] at hsta ⊢
      split_ifs at hsta ⊢ with hassoc
      · exact ⟨clients, c, rfl, hassoc, (apClientsFind_some hfind).2, rfl⟩
      · exact absurd rfl hsta

namespace State

/-- The increments for what became of the frames, and the frames still in `q`. -/
def accounted (s : State) (q : List Msg) : ℕ :=
  s.begun (.txPushed .sta) + s.begun (.txDropped .sta) + s.begun (.txPushed .ap) +
    s.begun (.txDropped .ap) + s.begun .txUnknownVif + (queuedFrames q).length

def posted (s : State) : ℕ := s.begun (.txPosted .sta) + s.begun (.txPosted .ap)

/-- `q` has the messages that are not dealt with. -/
structure Inv (q : List Msg) (s : State) : Prop where
  buffers : OwnedOnce (fun k => (s.inflight k).map Prod.snd) s.freedBuffers s.nextBuffer
  held : ∀ td h, s.ring td = some h → ∃ k, s.inflight k = some (td, h.origAddr)
  wiped : s.txReset = true → ∀ td, s.ring td = none
  refs : (queuedRefs q ++ s.freedRefs).Perm (List.range s.nextRef)
  ordered : (s.pushed.map (fun x => (x.vifIdx, x.bytes)) ++ queuedFrames q).Sublist s.accepted
  addressed : ∀ x ∈ s.pushed, x.Addressed
  balanced : s.accounted q = s.attempts
  posted : s.posted = s.accepted.length
  intact : s.readFreed = false

variable {s : State} {q rest : List Msg} {ref : ℕ} {p : Pbuf} {v : UInt8} {i : IfaceId}

/-! ## Counting -/

/-- Every counter but those of the frames accepted is for what becomes of a frame. -/
def outcome : Counter → ℕ
  | .txPosted _ => 0
  | _ => 1

theorem accounted_count (s : State) (t : Task) (c : Counter) (q : List Msg) :
    (s.count t c).accounted q = s.accounted q + outcome c := by
  rcases c with (_ | _) | (_ | _) | (_ | _) | _ <;>
    simp only [accounted, count, outcome, Function.update_apply, reduceCtorEq, if_true, if_false,
      Counter.txPushed.injEq, Counter.txDropped.injEq] <;> omega

theorem posted_count (s : State) (t : Task) (c : Counter) :
    (s.count t c).posted + outcome c = s.posted + 1 := by
  rcases c with (_ | _) | (_ | _) | (_ | _) | _ <;>
    simp only [posted, count, outcome, Function.update_apply, reduceCtorEq, if_true, if_false,
      Counter.txPosted.injEq] <;> omega

/-- The message taken from the queue is one frame fewer. -/
theorem accounted_tx (s : State) (ref : ℕ) (p : Pbuf) (v : UInt8) (rest : List Msg) :
    s.accounted (.tx ref p v :: rest) = s.accounted rest + 1 := by
  simp only [accounted, queuedFrames, List.filterMap_cons, Msg.frame?, List.length_cons]
  omega

theorem accounted_post (s : State) (ref : ℕ) (p : Pbuf) (v : UInt8) (q : List Msg) :
    s.accounted (q ++ [.tx ref p v]) = s.accounted q + 1 := by
  simp only [accounted, queuedFrames, List.filterMap_append, List.filterMap_cons,
    List.filterMap_nil, Msg.frame?, List.length_append, List.length_singleton]
  omega

theorem refs_tx {refs freed : List ℕ}
    (h : (queuedRefs (.tx ref p v :: rest) ++ freed).Perm refs) :
    (queuedRefs rest ++ ref :: freed).Perm refs := by
  refine (List.perm_middle.trans ?_).trans h
  simp [queuedRefs, Msg.ref?]

/-! ## Steps of the core task -/

/-- A frame is given up, and counted. -/
theorem Inv.drop (h : Inv (.tx ref p v :: rest) s) {c : Counter} (hc : outcome c = 1) :
    Inv rest ((s.count .core c).pbufFree ref) where
  buffers := h.buffers
  held := h.held
  wiped := h.wiped
  refs := refs_tx h.refs
  ordered := ((List.sublist_cons_self _ _).append_left _).trans h.ordered
  addressed := h.addressed
  balanced := by
    have hcount := accounted_count s .core c rest
    rw [hc, ← accounted_tx s ref p v, h.balanced] at hcount
    exact hcount
  posted := by
    have hcount := posted_count s .core c
    rw [hc, h.posted] at hcount
    exact Nat.add_right_cancel hcount
  intact := h.intact

theorem Inv.complete (h : Inv q s) (td : Td) : Inv q (s.complete td) where
  buffers := h.buffers
  held := by
    intro td' host htd
    simp only [State.complete, Function.update_apply] at htd
    split_ifs at htd
    exact h.held td' host htd
  wiped := by
    intro hreset td'
    simp only [State.complete, Function.update_apply]
    split_ifs
    · rfl
    · exact h.wiped hreset td'
  refs := h.refs
  ordered := h.ordered
  addressed := h.addressed
  balanced := h.balanced
  posted := h.posted
  intact := h.intact

/-- Only buffers that no descriptor in use has are freed. -/
theorem Inv.reapSlot (h : Inv q s) {reset : Bool} (hreset : reset = true → ∀ td, s.ring td = none)
    (k : Fin txInflight) : Inv q (s.reapSlot reset k) := by
  unfold State.reapSlot
  split
  · exact h
  · next td b hk =>
    split_ifs with hused
    · exact h
    · have hidle : s.ring td = none := by
        cases reset with
        | true => exact hreset rfl td
        | false => simpa using hused
      refine ⟨?_, ?_, h.wiped, h.refs, h.ordered, h.addressed, h.balanced, h.posted, h.intact⟩
      · have hslots : (fun k' => (Function.update s.inflight k none k').map Prod.snd) =
            Function.update (fun k' => (s.inflight k').map Prod.snd) k none := by
          funext k'
          simp only [Function.update_apply]
          split_ifs <;> rfl
        have hfreed := h.buffers.discard k
        rw [hk] at hfreed
        exact hslots ▸ hfreed
      · intro td' host htd
        replace htd : s.ring td' = some host := htd
        obtain ⟨k', hk'⟩ := h.held td' host htd
        have hne : k' ≠ k := by
          rintro rfl
          obtain rfl : td = td' := by simpa [hk] using congrArg (Option.map Prod.fst) hk'
          simp [hidle] at htd
        refine ⟨k', ?_⟩
        show Function.update s.inflight k none k' = _
        rw [Function.update_of_ne hne, hk']

@[simp] theorem reapSlot_ring (reset : Bool) (s : State) (k : Fin txInflight) :
    (s.reapSlot reset k).ring = s.ring := by
  unfold reapSlot
  split
  · rfl
  · split_ifs <;> rfl

/-- The core task is at work on a message that came with `rest` behind it. -/
structure Working (q : List Msg) (t : Table) (rest : List Msg) (s : State) : Prop where
  inv : Inv q s
  table : s.table = t
  queue : s.queue = rest

theorem Working.reapSlot {t : Table} (h : Working q t rest s) {reset : Bool}
    (hreset : reset = true → ∀ td, s.ring td = none) (k : Fin txInflight) :
    Working q t rest (s.reapSlot reset k) := by
  refine ⟨h.inv.reapSlot hreset k, ?_, ?_⟩
  · rw [← h.table]
    unfold State.reapSlot
    split
    · rfl
    · split_ifs <;> rfl
  · rw [← h.queue]
    unfold State.reapSlot
    split
    · rfl
    · split_ifs <;> rfl

theorem Working.txReap {t : Table} (h : Working q t rest s) : Working q t rest s.txReap := by
  have hfold : ∀ (ks : List (Fin txInflight)) (s' : State), Working q t rest s' →
      (s.txReset = true → ∀ td, s'.ring td = none) →
      Working q t rest (ks.foldl (State.reapSlot s.txReset) s') := by
    intro ks
    induction ks with
    | nil => exact fun s' h' _ => h'
    | cons k ks ih =>
      intro s' h' hreset
      exact ih _ (h'.reapSlot hreset k) fun hs td => by simpa using hreset hs td
  have hcleared : Inv q { s with txReset := false } :=
    ⟨h.inv.buffers, h.inv.held, nofun, h.inv.refs, h.inv.ordered, h.inv.addressed, h.inv.balanced,
      h.inv.posted, h.inv.intact⟩
  exact hfold _ _ ⟨hcleared, h.table, h.queue⟩ h.inv.wiped

theorem Working.completes {t : Table} (h : Working q t rest s) (late : List Td) :
    Working q t rest (late.foldl State.complete s) := by
  induction late generalizing s with
  | nil => exact h
  | cons td late ih => exact ih ⟨h.inv.complete td, h.table, h.queue⟩

theorem addressed_of_txStaid {e : Peers} {vif : UInt8} {dest : Octets 6} {bytes : List UInt8}
    (hsta : txStaid e i vif dest ≠ apNoSta) (hdest : dest.val = bytes.take 6) :
    (⟨i, vif, txStaid e i vif dest, bytes, e⟩ : Sent).Addressed := by
  refine ⟨hsta, ?_⟩
  cases i with
  | sta => rfl
  | ap =>
    have hhead : dest.val.headD 0 = bytes.headD 0 := by
      rw [hdest]
      cases bytes <;> rfl
    simp only
    split_ifs with hgroup
    · simp only [txStaid, apTxStaid, hhead, if_pos hgroup]
    · obtain ⟨clients, c, hclients, hassoc, hmac, hidx⟩ :=
        apTxStaid_client hsta (by rw [hhead]; exact not_not.mp hgroup)
      exact ⟨clients, c, hclients, hassoc, by rw [hmac, hdest], hidx⟩

theorem Inv.copyAndPush (h : Inv (.tx ref p v :: rest) s) {e : Env} {staid : UInt8}
    {k : Fin txInflight} (hk : s.inflight k = none) (hlen : ethHdrLen < p.totLen)
    (hvif : (s.table i).vif = v)
    (haddressed : (⟨i, v, staid, p.bytes, e.peers⟩ : Sent).Addressed) (hreset : s.txReset = false) :
    Inv rest (s.copyAndPush e ref p i staid k) := by
  unfold State.copyAndPush
  simp only [copyPartial_all]
  split_ifs with hmalloc hcopied
  · exact h.drop rfl
  · exact absurd rfl hcopied
  · have hslots : (fun k' => (Function.update s.inflight k (some (e.td, s.nextBuffer)) k').map
        Prod.snd) = Function.update (fun k' => (s.inflight k').map Prod.snd) k
          (some s.nextBuffer) := by
      funext k'
      simp only [Function.update_apply]
      split_ifs <;> rfl
    dsimp only [pbufFree, count]
    rw [transmitted_fillHost hlen s.nextBuffer (s.table i).vif staid rfl]
    refine ⟨?_, ?_, fun hr => absurd hr (by simp [hreset]), refs_tx h.refs,
      ?_, ?_, ?_, (h.drop (c := .txPushed i) rfl).posted, h.intact⟩
    · have hnew := h.buffers.create (p := k) (by simp [hk])
      exact hslots ▸ hnew
    · intro td host htd
      replace htd : Function.update s.ring e.td _ td = some host := htd
      rw [Function.update_apply] at htd
      split_ifs at htd with hself
      · obtain rfl := Option.some.inj htd
        exact ⟨k, by rw [hself]; exact Function.update_self ..⟩
      · obtain ⟨k', hk'⟩ := h.held td host htd
        have hne : k' ≠ k := by
          rintro rfl
          simp [hk] at hk'
        refine ⟨k', ?_⟩
        show Function.update s.inflight k _ k' = _
        rw [Function.update_of_ne hne, hk']
    · have hordered := h.ordered
      simp only [queuedFrames, List.filterMap_cons, Msg.frame?] at hordered
      simpa [fillHost, hvif, queuedFrames] using hordered
    · intro x hx
      rcases List.mem_append.mp hx with hx | hx
      · exact h.addressed x hx
      · obtain rfl := List.mem_singleton.mp hx
        simpa [fillHost, hvif] using haddressed
    · exact (h.drop (c := .txPushed i) rfl).balanced

@[simp] theorem txReap_txReset (s : State) : s.txReap.txReset = false := by
  have hfold : ∀ (ks : List (Fin txInflight)) (s' : State),
      (ks.foldl (State.reapSlot s.txReset) s').txReset = s'.txReset := by
    intro ks
    induction ks with
    | nil => exact fun _ => rfl
    | cons k ks ih =>
      intro s'
      refine (ih _).trans ?_
      unfold State.reapSlot
      split
      · rfl
      · split_ifs <;> rfl
  exact hfold _ _

theorem completes_frame (s : State) (late : List Td) :
    (late.foldl State.complete s).inflight = s.inflight ∧
      (late.foldl State.complete s).txReset = s.txReset := by
  induction late generalizing s with
  | nil => exact ⟨rfl, rfl⟩
  | cons td late ih => exact ih (s.complete td)

theorem copyAndPush_queue (s : State) (e : Env) (ref : ℕ) (p : Pbuf) (i : IfaceId) (staid : UInt8)
    (k : Fin txInflight) : (s.copyAndPush e ref p i staid k).queue = s.queue := by
  simp only [copyAndPush]
  split_ifs <;> rfl

theorem Inv.wifiNetTxFromCore (h : Inv (.tx ref p v :: rest) s) (hqueue : s.queue = rest)
    (e : Env) : Inv rest (s.wifiNetTxFromCore e ref p v) ∧
      (s.wifiNetTxFromCore e ref p v).queue = rest := by
  unfold State.wifiNetTxFromCore
  split
  · exact ⟨h.drop rfl, hqueue⟩
  · next i hi =>
    split_ifs with hshort
    · exact ⟨h.drop rfl, hqueue⟩
    dsimp only
    split
    · exact ⟨h.drop rfl, hqueue⟩
    · next hsta =>
      have hreaped : Working (.tx ref p v :: rest) s.table rest s.txReap :=
        Working.txReap ⟨h, rfl, hqueue⟩
      cases hslot : s.txReap.freeSlot with
      | none => exact ⟨hreaped.inv.drop rfl, hreaped.queue⟩
      | some k =>
        have hwork := hreaped.completes e.late
        have hfree := List.find?_some hslot
        obtain ⟨hinflight, hreset⟩ := completes_frame s.txReap e.late
        dsimp only
        split_ifs with hused
        · exact ⟨hwork.inv.drop rfl, hwork.queue⟩
        · refine ⟨hwork.inv.copyAndPush (by simpa [hinflight] using hfree) (by omega) ?_ ?_ ?_, ?_⟩
          · rw [hwork.table]
            exact ifaceFromVif_vif hi
          · rw [← ifaceFromVif_vif hi]
            exact addressed_of_txStaid hsta rfl
          · rw [hreset, txReap_txReset]
          · rw [copyAndPush_queue, hwork.queue]

/-! ## Posting -/

theorem refs_post {refs : List ℕ} {next : ℕ} {freed : List ℕ}
    (h : (queuedRefs q ++ freed).Perm refs) :
    (queuedRefs (q ++ [.tx next p v]) ++ freed).Perm (refs ++ [next]) := by
  simp only [queuedRefs, List.filterMap_append, List.filterMap_cons, List.filterMap_nil, Msg.ref?,
    List.append_assoc, List.singleton_append]
  exact (List.perm_middle.trans (h.cons next)).trans (List.perm_append_singleton next refs).symm

theorem refs_drop {refs : List ℕ} {next : ℕ} {queued freed : List ℕ}
    (h : (queued ++ freed).Perm refs) : (queued ++ next :: freed).Perm (refs ++ [next]) :=
  (List.perm_middle.trans (h.cons next)).trans (List.perm_append_singleton next refs).symm

theorem Inv.lowLevelOutput (h : Inv s.queue s) (t : Task) (i : IfaceId) (p : Pbuf) :
    Inv (s.lowLevelOutput t i p).queue (s.lowLevelOutput t i p) := by
  unfold State.lowLevelOutput
  split
  · exact h
  dsimp only
  split_ifs
  · refine ⟨h.buffers, h.held, h.wiped, ?_, ?_, h.addressed, ?_, ?_, h.intact⟩
    · show (queuedRefs (s.queue ++ _) ++ s.freedRefs).Perm (List.range (s.nextRef + 1))
      rw [List.range_succ]
      exact refs_post h.refs
    · show List.Sublist (_ ++ queuedFrames (s.queue ++ _)) (s.accepted ++ _)
      have hlast : queuedFrames (s.queue ++ [.tx s.nextRef p (s.table i).vif]) =
          queuedFrames s.queue ++ [((s.table i).vif, p.bytes)] := by
        simp [queuedFrames, Msg.frame?]
      rw [hlast, ← List.append_assoc]
      exact h.ordered.append_right _
    · refine (accounted_count _ t (.txPosted i) _).trans
        ((accounted_post s s.nextRef p _ s.queue).trans ?_)
      rw [h.balanced]
      rfl
    · refine (posted_count _ t (.txPosted i)).trans ?_
      show s.posted + 1 = (s.accepted ++ _).length
      rw [h.posted, List.length_append]
      rfl
  · refine ⟨h.buffers, h.held, h.wiped, ?_, h.ordered, h.addressed, ?_, ?_, h.intact⟩
    · show (queuedRefs s.queue ++ s.nextRef :: s.freedRefs).Perm (List.range (s.nextRef + 1))
      rw [List.range_succ]
      exact refs_drop h.refs
    · refine (accounted_count { s with
        nextRef := s.nextRef + 1
        attempts := s.attempts + 1 } t (.txDropped i) s.queue).trans ?_
      exact congrArg (· + 1) h.balanced
    · have hposted := posted_count { s with
        nextRef := s.nextRef + 1
        attempts := s.attempts + 1 } t (.txDropped i)
      exact Nat.add_right_cancel (hposted.trans (congrArg (· + 1) h.posted))

theorem Inv.of_perm (h : Inv q s) {freed : List ℕ} (hfreed : freed.Perm s.freedRefs) :
    Inv q { s with freedRefs := freed } :=
  ⟨h.buffers, h.held, h.wiped, (hfreed.append_left _).trans h.refs, h.ordered, h.addressed,
    h.balanced, h.posted, h.intact⟩

/-- The caller's own reference might as well be dropped first. -/
theorem lowLevelOutput_pbufFree (s : State) (t : Task) (i : IfaceId) (p : Pbuf) (ref : ℕ) :
    ∃ freed, freed.Perm ((s.pbufFree ref).lowLevelOutput t i p).freedRefs ∧
      (s.lowLevelOutput t i p).pbufFree ref =
        { (s.pbufFree ref).lowLevelOutput t i p with freedRefs := freed } := by
  unfold State.lowLevelOutput
  dsimp only [pbufFree, count]
  split_ifs
  · exact ⟨_, .refl _, rfl⟩
  · exact ⟨_, .refl _, rfl⟩
  · exact ⟨_, .swap .., rfl⟩

theorem Inv.wifiNetSendRaw (h : Inv s.queue s) (v : UInt8) (p : Pbuf) (alloc : Bool) :
    Inv (s.wifiNetSendRaw v p alloc).queue (s.wifiNetSendRaw v p alloc) := by
  unfold State.wifiNetSendRaw
  split
  · exact h
  · next i _ =>
    split_ifs
    · exact h
    · obtain ⟨freed, hfreed, heq⟩ :=
        lowLevelOutput_pbufFree { s with nextRef := s.nextRef + 1 } .supplicant i p s.nextRef
      have hwasted : Inv s.queue ({ s with nextRef := s.nextRef + 1 }.pbufFree s.nextRef) := by
        refine ⟨h.buffers, h.held, h.wiped, ?_, h.ordered, h.addressed, h.balanced, h.posted,
          h.intact⟩
        show (queuedRefs s.queue ++ s.nextRef :: s.freedRefs).Perm (List.range (s.nextRef + 1))
        rw [List.range_succ]
        exact refs_drop h.refs
      dsimp only
      rw [heq]
      exact (hwasted.lowLevelOutput .supplicant i p).of_perm hfreed

/-! ## Runs -/

theorem Inv.step {l : Label} {s' : State} (h : Inv s.queue s) (hstep : WifiTx.step s l = some s') :
    Inv s'.queue s' := by
  cases l with
  | output i p =>
    simp only [WifiTx.step] at hstep
    split_ifs at hstep
    cases hstep
    exact h.lowLevelOutput .tcpip i p
  | sendRaw v p alloc =>
    simp only [WifiTx.step] at hstep
    split_ifs at hstep
    cases hstep
    exact h.wifiNetSendRaw v p alloc
  | load t =>
    obtain ⟨c, -, rfl⟩ := load_cases hstep
    exact ⟨h.buffers, h.held, h.wiped, h.refs, h.ordered, h.addressed, h.balanced, h.posted,
      h.intact⟩
  | store t =>
    obtain ⟨c, n, -, rfl⟩ := store_cases hstep
    exact ⟨h.buffers, h.held, h.wiped, h.refs, h.ordered, h.addressed, h.balanced, h.posted,
      h.intact⟩
  | postOther =>
    cases hstep
    unfold State.postOther
    split_ifs
    · refine ⟨h.buffers, h.held, h.wiped, ?_, ?_, h.addressed, ?_, h.posted, h.intact⟩
      · rw [queuedRefs_other]
        exact h.refs
      · rw [queuedFrames_other]
        exact h.ordered
      · simp only [accounted, queuedFrames_other]
        exact h.balanced
    · exact h
  | core e =>
    simp only [WifiTx.step] at hstep
    split_ifs at hstep
    split at hstep
    · cases hstep
    · next rest hqueue =>
      cases hstep
      rw [hqueue] at h
      exact ⟨h.buffers, h.held, h.wiped, h.refs, h.ordered, h.addressed, h.balanced, h.posted,
        h.intact⟩
    · next ref p v rest hqueue =>
      cases hstep
      rw [hqueue] at h
      have htaken : Inv (.tx ref p v :: rest) { s with queue := rest } :=
        ⟨h.buffers, h.held, h.wiped, h.refs, h.ordered, h.addressed, h.balanced, h.posted,
          h.intact⟩
      obtain ⟨hinv, hrest⟩ := htaken.wifiNetTxFromCore rfl e
      rwa [hrest]
  | touch td contents =>
    obtain ⟨host, htd, rfl⟩ := Option.map_eq_some_iff.mp hstep
    refine ⟨h.buffers, h.held, h.wiped, h.refs, h.ordered, h.addressed, h.balanced, h.posted, ?_⟩
    obtain ⟨k, hk⟩ := h.held td host htd
    have hlive : host.origAddr ∉ s.freedBuffers := h.buffers.not_gone k _ (by simp [hk])
    simp [h.intact, hlive]
  | complete td =>
    cases hstep
    exact h.complete td
  | reset =>
    cases hstep
    refine ⟨h.buffers, ?_, fun _ _ => rfl, h.refs, h.ordered, h.addressed, h.balanced, h.posted,
      h.intact⟩
    intro td host htd
    cases htd
  | setTable t =>
    cases hstep
    exact ⟨h.buffers, h.held, h.wiped, h.refs, h.ordered, h.addressed, h.balanced, h.posted,
      h.intact⟩

theorem init_inv (t : Table) : Inv [] (init t) where
  buffers := OwnedOnce.empty
  held := nofun
  wiped := nofun
  refs := .refl _
  ordered := .refl _
  addressed := by simp [init]
  balanced := rfl
  posted := rfl
  intact := rfl

end State

/-- The archive never meets a freed buffer, no two descriptors share one, and what is not freed
is in `inflight`. Every reference is queued or was dropped, and dropped once. -/
structure State.MemorySafe (s : State) : Prop where
  intact : s.readFreed = false
  live : ∀ td h, s.ring td = some h → h.origAddr < s.nextBuffer ∧ h.origAddr ∉ s.freedBuffers
  unshared : ∀ td td' h h', s.ring td = some h → s.ring td' = some h' →
    h.origAddr = h'.origAddr → td = td'
  freedOnce : s.freedBuffers.Nodup
  kept : ∀ b < s.nextBuffer, b ∈ s.freedBuffers ∨ ∃ k td, s.inflight k = some (td, b)
  refs : (queuedRefs s.queue ++ s.freedRefs).Perm (List.range s.nextRef)

theorem State.Inv.memorySafe {s : State} (h : State.Inv s.queue s) : s.MemorySafe where
  intact := h.intact
  live := by
    intro td host htd
    obtain ⟨k, hk⟩ := h.held td host htd
    exact ⟨h.buffers.slot_lt k _ (by simp [hk]), h.buffers.not_gone k _ (by simp [hk])⟩
  unshared := by
    intro td td' host host' htd htd' hsame
    obtain ⟨k, hk⟩ := h.held td host htd
    obtain ⟨k', hk'⟩ := h.held td' host' htd'
    have hkk := h.buffers.unique k k' host.origAddr (by simp [hk]) (by simp [hk', hsame])
    subst hkk
    simpa using congrArg (Option.map Prod.fst) (hk.symm.trans hk')
  freedOnce := h.buffers.nodup
  kept := by
    intro b hb
    refine (h.buffers.kept b hb).imp_right fun ⟨k, hk⟩ => ?_
    obtain ⟨⟨td, b'⟩, hslot, rfl⟩ := Option.map_eq_some_iff.mp hk
    exact ⟨k, td, hslot⟩
  refs := h.refs

/-- Whatever the stack posts, the archive does and the tables become: memory is safe, the frames
handed over are accepted ones, whole, in order, each to the peer it is addressed to, and every frame
comes to its increment. The counters show the increments if no two tasks ever hold the value of one
counter. -/
theorem wifiNetTx_runs {t : Table} {ls : List Label} {s : State}
    (hrun : runSteps step (State.init t) ls = some s) :
    s.MemorySafe ∧
      ((s.pushed.map fun x => (x.vifIdx, x.bytes)) ++ queuedFrames s.queue).Sublist s.accepted ∧
      (∀ x ∈ s.pushed, x.Addressed) ∧
      (s.accounted s.queue = s.attempts ∧ s.posted = s.accepted.length) ∧
      (Within step (fun s _ => s.Undivided) (State.init t) ls →
        ∀ c, s.stat c + .ofNat (s.pending c) = .ofNat (s.begun c)) := by
  have h := @invariant_of_steps State Label step (fun s => State.Inv s.queue s)
    (fun _ _ _ hs hstep => hs.step hstep) ls (State.init t) s (State.init_inv t) hrun
  refine ⟨h.memorySafe, h.ordered, h.addressed, ⟨h.balanced, h.posted⟩, fun hundivided => ?_⟩
  exact (State.exact_run (State.init_exact t) hundivided hrun).counted

/-- The station is up, with index 0. -/
def stationUp : Table := fun i => { wifiIfaces i with vif := 0, started := i = .sta }

def oneFrame : Pbuf := ⟨[List.replicate 14 0xFF, [1, 2]], by decide⟩

def answering : Env := ⟨⟨fun _ => 3, 0, none⟩, [], 0, true⟩

/-- A frame, a reset while it is in flight, another one. -/
def resetRun : List Label := [.output .sta oneFrame, .core answering, .touch 0 [], .reset,
  .load .tcpip, .load .core, .store .core, .store .tcpip, .output .sta oneFrame, .core answering,
  .touch 0 []]

theorem wifiNetTx_runs_reset : ∃ s, runSteps step (State.init stationUp) resetRun = some s ∧
    s.freedBuffers = [0] ∧ s.pushed.length = 2 ∧ s.MemorySafe ∧
    s.stat (.txPushed .sta) + .ofNat (s.pending (.txPushed .sta)) = 2 := by
  have hundivided : Within step (fun s _ => s.Undivided) (State.init stationUp) resetRun := by
    decide +kernel
  obtain ⟨hsafe, -, -, -, hexact⟩ := @wifiNetTx_runs stationUp resetRun _ rfl
  exact ⟨_, rfl, rfl, rfl, hsafe, hexact hundivided _⟩

/-- The stack's thread and the supplicant's task post a frame each, and both read the counter before
either stores. -/
def dividedRun : List Label := [.output .sta oneFrame, .sendRaw 0 oneFrame true, .load .tcpip,
  .load .supplicant, .store .tcpip, .store .supplicant]

/-- One of the two increments is lost. -/
theorem wifiNetTx_increment_lost : ∃ s, runSteps step (State.init stationUp) dividedRun = some s ∧
    s.accepted.length = 2 ∧ s.pending (.txPosted .sta) = 0 ∧ s.stat (.txPosted .sta) = 1 :=
  ⟨_, rfl, rfl, rfl, rfl⟩

end BekenCam.WifiTx
