import BekenCam.StaLife
import BekenCam.StepRuns

/-!
# What becomes of an association

The whole state follows from how far each association is, and a step moves at most one of them. So
a promise is answered once, and nothing is lost or freed twice.
-/
namespace BekenCam.Sta

open Scan (Promise)

/-! ## The whole state -/

/-- The state tells how far each association is. -/
structure Follows (life : ℕ → Life) (s : State) : Prop where
  fits : ∀ k, Fits k (life k) (s.view k)
  paired : s.result = s.promise
  own : ∀ w k r, (s.task w).carried = some (k, r) → r = some k
  mine : ∀ k r, s.caller = .unsent k (some r) → r = k
  current : ∀ k j, s.caller.current = some k → s.promise = some j → j = k
  past : s.caller.isPast = true → s.promise = none

theorem iff_of_beq_eq {α : Type} [BEq α] [LawfulBEq α] {a b : α} {p : Prop} [Decidable p]
    (h : (a == b) = decide p) : a = b ↔ p := by
  rw [← beq_iff_eq, h, decide_eq_true_iff]

section Readings

variable {life : ℕ → Life} {s : State}

theorem Follows.used_iff (h : Follows life s) (k : ℕ) : k < s.next ↔ life k ≠ .unused :=
  decide_eq_decide.mp (h.fits k).used

theorem Follows.building_iff (h : Follows life s) (k : ℕ) :
    s.caller.building = some k ↔ life k = .built :=
  iff_of_beq_eq (h.fits k).built

theorem Follows.withdrawn_iff (h : Follows life s) (k : ℕ) :
    s.caller.withdrawn = some k ↔ life k = .unsent :=
  iff_of_beq_eq (h.fits k).unsent

theorem Follows.promise_iff (h : Follows life s) (k : ℕ) :
    s.promise = some k ↔ life k = .published :=
  iff_of_beq_eq (h.fits k).published

theorem Follows.pending_iff (h : Follows life s) (w : Who) (k : ℕ) :
    (s.task w).pending = some k ↔ life k = .taken w :=
  iff_of_beq_eq ((h.fits k).taken w)

theorem Follows.answered_iff (h : Follows life s) (w : Who) (k : ℕ) :
    (s.task w).answered = some k ↔ life k = .answered w :=
  iff_of_beq_eq ((h.fits k).answered w)

theorem Follows.count_gone (h : Follows life s) (k : ℕ) : s.gone.count k =
    if life k = .givenUp ∨ ((life k).isAnswered = true ∧ (s.promises k).value = none)
      then 1 else 0 :=
  (h.fits k).gone

theorem Follows.at (h : Follows life s) {k : ℕ} {x : Life} (hlife : life k = x) :
    Fits k x (s.view k) := hlife ▸ h.fits k

end Readings

theorem follows_init : Follows (fun _ => .unused) init where
  fits k := by
    constructor <;> simp [State.view, init, Task.pending]
  paired := rfl
  own := by simp [init]
  mine := by simp [init]
  current := by simp [init]
  past := by simp [init]

section Views

variable {life : ℕ → Life} {s t : State} {k : ℕ} {x : Life}

/-- Only the association `k` goes on. -/
theorem Follows.fits_move (h : Follows life s) (hothers : ∀ q, q ≠ k → t.view q = s.view q)
    (hfits : Fits k x (t.view k)) (q : ℕ) : Fits q (Function.update life k x q) (t.view q) := by
  rw [Function.update_apply]
  split_ifs with hq
  · exact hq ▸ hfits
  · rw [hothers q hq]
    exact h.fits q

theorem view_caller (s : State) (c : Caller) (q : ℕ) :
    ({ s with caller := c } : State).view q = { s.view q with
      built := c.building == some q, unsent := c.withdrawn == some q
      client := c.client == some q, waiting := c.waiting == some q } := rfl

theorem view_setTask (s : State) (w : Who) (t : Task) (q : ℕ) :
    (s.setTask w t).view q = { s.view q with
      taken := Function.update (s.view q).taken w (t.pending == some q)
      answered := Function.update (s.view q).answered w (t.answered == some q) } := by
  refine View.ext rfl rfl rfl rfl ?_ ?_ rfl rfl rfl rfl rfl rfl rfl
  all_goals
    funext w'
    simp only [State.view, State.setTask, Function.update_apply]
    split_ifs <;> rfl

theorem view_setPromise (s : State) (k q : ℕ) (obj : Promise) :
    (s.setPromise k obj).view q = { s.view q with obj := if q = k then obj else s.promises q } :=
  View.ext rfl rfl rfl rfl rfl rfl (Function.update_apply s.promises k obj q) rfl rfl rfl rfl rfl
    rfl

theorem view_letGo (s : State) (k q : ℕ) (obj : Promise) :
    (s.letGo k obj).view q = { s.view q with
      obj := if q = k then obj.letGo else s.promises q
      gone := (s.view q).gone + (lost obj).toList.count q } := by
  refine View.ext rfl rfl rfl rfl rfl rfl (Function.update_apply s.promises k obj.letGo q) rfl ?_
    rfl rfl rfl rfl
  simp only [State.view, State.letGo, List.count_append, lost]
  exact Nat.add_comm _ _

theorem view_dropped (s : State) (k q : ℕ) :
    ({ s with dropped := k :: s.dropped } : State).view q = { s.view q with
      dropped := (s.view q).dropped + if k = q then 1 else 0 } := by
  refine View.ext rfl rfl rfl rfl rfl rfl rfl rfl rfl ?_ rfl rfl rfl
  simp [State.view, List.count_cons]

theorem view_setTask_same {w : Who} {t : Task} (hcarried : t.carried = (s.task w).carried)
    (hanswered : t.answered = (s.task w).answered) (q : ℕ) : (s.setTask w t).view q = s.view q := by
  rw [view_setTask, Task.pending, hcarried, hanswered]
  exact View.ext rfl rfl rfl rfl (Function.update_eq_self w (s.view q).taken)
    (Function.update_eq_self w (s.view q).answered) rfl rfl rfl rfl rfl rfl rfl

end Views

section Steps

variable {life : ℕ → Life} {s : State} {k : ℕ} {w : Who}

/-- A step of the caller that gives nothing away. -/
theorem Follows.setCaller (h : Follows life s) {c : Caller}
    (hbuilding : c.building = s.caller.building) (hwithdrawn : c.withdrawn = s.caller.withdrawn)
    (hclient : c.client = s.caller.client)
    (hwaiting : ∀ k, c.waiting = some k → s.caller.waiting = some k)
    (hmine : ∀ k r, c ≠ .unsent k (some r))
    (hcurrent : ∀ k j, c.current = some k → s.promise = some j → j = k)
    (hpast : c.isPast = true → s.promise = none) : Follows life { s with caller := c } where
  fits q := by
    rw [view_caller, hbuilding, hwithdrawn, hclient]
    exact { h.fits q with
      waiting := fun hq => (h.fits q).waiting (by
        have hc := hwaiting q (by simpa using hq)
        simpa [State.view] using hc) }
  paired := h.paired
  own := h.own
  mine k r hc := absurd hc (hmine k r)
  current := hcurrent
  past := hpast

theorem Caller.of_client_none {c : Caller} (h : c.client = none) : c.building = none ∧
    c.withdrawn = none ∧ c.waiting = none ∧ c.current = none := by
  cases c <;> simp_all

theorem Caller.of_current {c : Caller} (h : c.current = some k) : c.building = none ∧
    c.withdrawn = none ∧ c.client = some k ∧ c.isPast = false := by
  cases c <;> simp_all

/-- A step of a caller that has nothing. -/
theorem Follows.setEmpty (h : Follows life s) {c : Caller} (hs : s.caller.client = none)
    (hc : c.client = none) (hpast : c.isPast = true → s.promise = none) :
    Follows life { s with caller := c } := by
  obtain ⟨hsb, hsw, -, -⟩ := Caller.of_client_none hs
  obtain ⟨hb, hw, hwaiting, hcurrent⟩ := Caller.of_client_none hc
  refine h.setCaller (hb.trans hsb.symm) (hw.trans hsw.symm) (hc.trans hs.symm) ?_ ?_ ?_ hpast
  · exact fun i hi => absurd (hwaiting.symm.trans hi) (by simp)
  · rintro k r rfl
    cases hw
  · exact fun i j hi => absurd (hcurrent.symm.trans hi) (by simp)

/-- A step of a caller whose association was published. -/
theorem Follows.setCurrent (h : Follows life s) {c : Caller} (hs : s.caller.current = some k)
    (hc : c.current = some k)
    (hwaiting : ∀ i, c.waiting = some i → s.caller.waiting = some i) :
    Follows life { s with caller := c } := by
  obtain ⟨hsb, hsw, hsc, -⟩ := Caller.of_current hs
  obtain ⟨hb, hw, hclient, hpast⟩ := Caller.of_current hc
  refine h.setCaller (hb.trans hsb.symm) (hw.trans hsw.symm) (hclient.trans hsc.symm) hwaiting
    ?_ ?_ ?_
  · rintro i r rfl
    cases hw
  · exact fun i j hi => h.current i j (hs.trans (hc.symm.trans hi))
  · exact fun hc => absurd (hpast.symm.trans hc) (by simp)

/-- A step of a task that takes nothing and leaves nothing. -/
theorem Follows.setTask (h : Follows life s) {t : Task}
    (hcarried : t.carried = (s.task w).carried) (hanswered : t.answered = (s.task w).answered) :
    Follows life (s.setTask w t) where
  fits q := by
    rw [view_setTask_same hcarried hanswered]
    exact h.fits q
  paired := h.paired
  own w' k r hk := by
    simp only [State.setTask, Function.update_apply] at hk
    split_ifs at hk with hw
    · exact h.own w k r (hcarried.symm.trans hk)
    · exact h.own w' k r hk
  mine := h.mine
  current := h.current
  past := h.past

theorem Follows.unused_next (h : Follows life s) : Fits s.next .unused (s.view s.next) :=
  h.at (not_not.mp (mt (h.used_iff s.next).mpr (Nat.lt_irrefl _)))

theorem Follows.build (h : Follows life s) {secure : Bool} (hs : s.caller = .ready secure) :
    Follows (Function.update life s.next .built) { s with
      promises := Function.update s.promises s.next ⟨true, false, false, false, none⟩
      results := Function.update s.results s.next ⟨.associated, 0⟩
      next := s.next + 1
      caller := .built s.next secure } where
  fits := h.fits_move (fun q hq => by
      refine View.ext ?_ ?_ ?_ rfl rfl rfl ?_ rfl rfl rfl rfl ?_ ?_
      · exact decide_eq_decide.mpr (Nat.lt_succ_iff_lt_or_eq.trans (or_iff_left hq))
      all_goals simp [State.view, hs, hq, Ne.symm hq]) (by
    convert h.unused_next.build using 1
    refine View.ext ?_ ?_ ?_ rfl rfl rfl ?_ rfl rfl rfl rfl ?_ ?_
    all_goals simp [State.view, hs])
  paired := h.paired
  own := h.own
  mine := by simp
  current := by simp
  past _ := h.past (by simp [hs])

theorem Follows.waste (h : Follows life s) {secure : Bool} (hs : s.caller = .ready secure) :
    Follows (Function.update life s.next .givenUp) { s with
      next := s.next + 1
      gone := s.next :: s.gone
      dropped := s.next :: s.dropped
      caller := .idle } where
  fits := h.fits_move (fun q hq => by
      refine View.ext ?_ ?_ ?_ rfl rfl rfl rfl rfl ?_ ?_ rfl ?_ ?_
      · exact decide_eq_decide.mpr (Nat.lt_succ_iff_lt_or_eq.trans (or_iff_left hq))
      all_goals simp [State.view, hs, Ne.symm hq]) (by
    have hvalue : (s.view s.next).obj.value = none := by
      by_contra hne
      obtain ⟨r, hr⟩ := Option.ne_none_iff_exists'.mp hne
      exact absurd (h.unused_next.own r hr).2 (by decide)
    convert h.unused_next.waste hvalue using 1
    refine View.ext ?_ ?_ ?_ rfl rfl rfl rfl rfl ?_ ?_ rfl ?_ ?_
    all_goals simp [State.view, hs])
  paired := h.paired
  own := h.own
  mine := by simp
  current := by simp
  past := by simp

theorem Follows.publish (h : Follows life s) {secure : Bool} (hs : s.caller = .built k secure) :
    Follows (Function.update life k .published)
      { (s.setPromise k { s.promises k with session := true }).dropPublished with
        promise := some k
        result := some k
        secure := secure
        handshake := false
        asked := false
        caller := .published k } := by
  have hnone : s.promise = none := h.past (by simp [hs])
  have hdrop : (s.setPromise k { s.promises k with session := true }).dropPublished =
      s.setPromise k { s.promises k with session := true } := by
    unfold State.dropPublished
    rw [show (s.setPromise k _).promise = none from hnone]
  have hbuilt : Fits k .built (s.view k) := h.at ((h.building_iff k).mp (by simp [hs]))
  rw [hdrop]
  exact {
    fits := h.fits_move (fun q hq => by
        refine View.ext rfl ?_ ?_ ?_ rfl rfl ?_ rfl rfl rfl rfl ?_ ?_
        all_goals simp [State.view, State.setPromise, hs, hnone, hq, Ne.symm hq]) (by
      convert hbuilt.publish using 1
      refine View.ext rfl ?_ ?_ ?_ rfl rfl ?_ rfl rfl rfl rfl ?_ ?_
      all_goals simp [State.view, State.setPromise, hs])
    paired := rfl
    own := h.own
    mine := by simp
    current := fun i j hi hj => by
      obtain rfl : k = i := by simpa using hi
      exact (Option.some.inj hj).symm
    past := by simp }

theorem Follows.hand (h : Follows life s) (hs : s.caller = .armed k) :
    Follows life { s with handed := k :: s.handed, caller := .idle } where
  fits q := by
    by_cases hq : q = k
    · subst q
      convert (h.fits k).hand (by simp [State.view, hs]) using 1
      refine View.ext rfl ?_ ?_ rfl rfl rfl rfl rfl rfl rfl ?_ ?_ ?_
      all_goals simp [State.view, hs]
    · convert h.fits q using 1
      refine View.ext rfl ?_ ?_ rfl rfl rfl rfl rfl rfl rfl ?_ ?_ ?_
      all_goals simp [State.view, hs, hq, Ne.symm hq]
  paired := h.paired
  own := h.own
  mine := by simp
  current := by simp
  past := by simp

/-- The session's handle is dropped while the caller has its own. -/
theorem dropPublished_of_client (hpromise : s.promise = some k)
    (hclient : (s.promises k).client = true) : s.dropPublished =
      { s with dropped := k :: s.dropped }.setPromise k { s.promises k with session := false } := by
  simp [State.dropPublished, hpromise, State.dropSession, State.letGo, State.setPromise,
    Promise.letGo, hclient]

/-- What the caller takes back of a refused request is what `session_finish` left. -/
theorem Follows.cleanup (h : Follows life s) (hs : s.caller = .stopped k) :
    ∃ life', Follows life' { s.dropPublished with
      promise := none
      result := none
      caller := .unsent k s.result } := by
  cases hpromise : s.promise with
  | none =>
    have hresult : s.result = none := h.paired.trans hpromise
    have hleft := h.setCaller (c := .unsent k none) (by simp [hs]) (by simp [hs]) (by simp [hs])
      (by simp) (by simp) (by simp) (by simp)
    refine ⟨life, ?_⟩
    simpa [State.dropPublished, hpromise, hresult] using hleft
  | some j =>
    obtain rfl : j = k := h.current k j (by simp [hs]) hpromise
    have hresult : s.result = some j := h.paired.trans hpromise
    have hpublished : Fits j .published (s.view j) := h.at ((h.promise_iff j).mp hpromise)
    have hclient := (hpublished.client (by simp [State.view, hs])).1
    rw [dropPublished_of_client hpromise hclient]
    refine ⟨Function.update life j .unsent, ?_, rfl, h.own, ?_, by simp, by simp⟩
    · refine h.fits_move (fun q hq => ?_) ?_
      · refine View.ext rfl ?_ ?_ ?_ rfl rfl ?_ rfl ?_ ?_ rfl ?_ ?_
        all_goals simp [State.view, State.setPromise, hs, hpromise, hresult, hq, Ne.symm hq]
      · convert hpublished.withdraw (by simp [State.view, hs]) using 1
        refine View.ext rfl ?_ ?_ ?_ rfl rfl ?_ rfl ?_ ?_ rfl ?_ ?_
        all_goals simp [State.view, State.setPromise, hs, hresult]
    · intro i r hi
      simp only [Caller.unsent.injEq, hresult] at hi
      rw [← hi.1, Option.some.inj hi.2]

theorem Caller.client_of_waiting {c : Caller} (h : c.waiting = some k) : c.client = some k := by
  cases c <;> simp_all

/-- The caller's handle goes, and the caller has nothing else. -/
theorem Follows.leaveEmpty (h : Follows life s) (hs : s.caller = .unsent k none) :
    Follows life ({ s with caller := .idle }.dropClient k) where
  fits q := by
    unfold State.dropClient
    rw [view_letGo]
    by_cases hq : q = k
    · subst q
      convert (h.fits k).dropClient using 1
      refine View.ext rfl ?_ ?_ rfl rfl rfl ?_ rfl rfl rfl rfl ?_ ?_
      all_goals simp [State.view, hs]
    · have hlost := (h.fits k).count_lost { s.promises k with client := false } rfl hq
      convert h.fits q using 1
      refine View.ext rfl ?_ ?_ rfl rfl rfl ?_ rfl ?_ rfl rfl ?_ ?_
      all_goals simp [State.view, hs, hq, Ne.symm hq, hlost]
  paired := h.paired
  own := h.own
  mine := by simp [State.dropClient, State.letGo]
  current := by simp [State.dropClient, State.letGo]
  past := by simp [State.dropClient, State.letGo]

theorem Follows.drop (h : Follows life s) (hk : k ∈ s.handed) : Follows life (s.dropClient k) where
  fits q := by
    unfold State.dropClient
    rw [view_letGo]
    by_cases hq : q = k
    · subst q
      have hclient : (s.view k).client = false := by
        by_contra hne
        have hnot := ((h.fits k).client (by simpa using hne)).2
        simp [State.view, hk] at hnot
      have hwaiting : (s.view k).waiting = false := by
        by_contra hne
        have hcaller := Caller.client_of_waiting (c := s.caller) (by simpa [State.view] using hne)
        exact absurd (hclient.symm.trans (beq_iff_eq.mpr hcaller)) (by decide)
      convert (h.fits k).dropClient using 1
      refine View.ext rfl rfl rfl rfl rfl rfl ?_ rfl rfl rfl rfl hclient hwaiting
      simp [State.view]
    · have hlost := (h.fits k).count_lost { s.promises k with client := false } rfl hq
      convert h.fits q using 1
      refine View.ext rfl rfl rfl rfl rfl rfl ?_ rfl ?_ rfl rfl rfl rfl
      all_goals simp [State.view, hq, hlost]
  paired := h.paired
  own := h.own
  mine := h.mine
  current := h.current
  past := h.past

/-- The caller returns nothing, and what it took back is deleted. -/
theorem Follows.leave (h : Follows life s) {r : Option ℕ} (hs : s.caller = .unsent k r) :
    ∃ life', Follows life'
      ({ s with gone := r.toList ++ s.gone, caller := .idle }.dropClient k) := by
  cases r with
  | none => exact ⟨life, h.leaveEmpty hs⟩
  | some r =>
    obtain rfl : r = k := h.mine k r hs
    have hunsent : Fits r .unsent (s.view r) := h.at ((h.withdrawn_iff r).mp (by simp [hs]))
    have hdeleted : Follows (Function.update life r .givenUp)
        { s with gone := r :: s.gone, caller := .unsent r none } :=
      { fits := h.fits_move (fun q hq => by
          refine View.ext rfl ?_ ?_ rfl rfl rfl rfl rfl ?_ rfl rfl ?_ ?_
          all_goals simp [State.view, hs, Ne.symm hq]) (by
          convert hunsent.giveUp using 1
          refine View.ext rfl ?_ ?_ rfl rfl rfl rfl rfl ?_ rfl rfl ?_ ?_
          all_goals simp [State.view, hs])
        paired := h.paired
        own := h.own
        mine := by simp
        current := by simp
        past := by simp }
    exact ⟨_, hdeleted.leaveEmpty rfl⟩

/-- The one who has the promise takes the result. -/
theorem Follows.await (h : Follows life s) (hresolved : (s.promises k).resolved = true) :
    Follows life { s.setPromise k { s.promises k with taken := true, value := none } with
      gone := (s.promises k).value.toList ++ s.gone } where
  fits q := by
    by_cases hq : q = k
    · subst q
      convert (h.fits k).await hresolved using 1
      refine View.ext rfl rfl rfl rfl rfl rfl ?_ rfl ?_ rfl rfl rfl rfl
      · simp [State.view, State.setPromise]
      · exact List.count_append.trans (Nat.add_comm _ _)
    · have hcount : (s.promises k).value.toList.count q = 0 := by
        cases hv : (s.promises k).value with
        | none => rfl
        | some r =>
          obtain ⟨rfl, -⟩ := (h.fits k).own r hv
          simp [Ne.symm hq]
      convert h.fits q using 1
      refine View.ext rfl rfl rfl rfl rfl rfl ?_ rfl ?_ rfl rfl rfl rfl
      all_goals simp [State.view, State.setPromise, hq, hcount]
  paired := h.paired
  own := h.own
  mine := h.mine
  current := h.current
  past := h.past

theorem update_of_eq {f : Who → Bool} {b : Bool} (h : b = f w) : Function.update f w b = f := by
  rw [h]
  exact Function.update_eq_self w f

/-- Whoever comes second finds the session empty. -/
theorem Follows.finish (h : Follows life s) {status : ConnectStatus}
    (hw : s.task w = .entering status) :
    ∃ life', Follows life' ({ s with promise := none, result := none }.setTask w
      (match s.promise with
        | some k => .took k s.result status
        | none => .idle)) := by
  cases hpromise : s.promise with
  | none =>
    have hresult : s.result = none := h.paired.trans hpromise
    have hsame : ({ s with promise := none, result := none } : State) = s := by
      cases s
      subst hpromise hresult
      rfl
    rw [hsame]
    exact ⟨life, h.setTask (by simp [hw]) (by simp [hw])⟩
  | some k =>
    have hresult : s.result = some k := h.paired.trans hpromise
    have hpublished : Fits k .published (s.view k) := h.at ((h.promise_iff k).mp hpromise)
    refine ⟨Function.update life k (.taken w), ?_, rfl, ?_, h.mine, by simp [State.setTask], fun _ => rfl⟩
    · refine h.fits_move (fun q hq => ?_) ?_
      · rw [view_setTask]
        refine View.ext rfl rfl rfl ?_ (update_of_eq ?_) (update_of_eq ?_) rfl rfl rfl rfl rfl rfl
          rfl
        all_goals simp [State.view, Task.pending, hw, hpromise, Ne.symm hq]
      · convert hpublished.take using 1
        rw [view_setTask]
        refine View.ext rfl rfl rfl rfl ?_ (update_of_eq ?_) rfl rfl rfl rfl rfl rfl rfl
        all_goals simp [State.view, Task.pending, hw]
    · intro w' j r hj
      simp only [State.setTask, Function.update_apply] at hj
      split_ifs at hj
      · simp only [Task.carried, Option.some.injEq, Prod.mk.injEq] at hj
        rw [← hj.1, ← hj.2, hresult]
      · exact h.own w' j r hj

/-- The promise was not resolved before, and it gets the association's own result. -/
theorem Follows.resolve (h : Follows life s) {r : Option ℕ} (hw : s.task w = .resolving k r) :
    (s.promises k).resolved = false ∧ Follows (Function.update life k (.answered w))
      (({ s with resolves := k :: s.resolves }.setTask w (.dropping k)).setPromise k
        { s.promises k with resolved := true, value := r }) := by
  have htaken : Fits k (.taken w) (s.view k) :=
    h.at ((h.pending_iff w k).mp (by simp [Task.pending, hw]))
  obtain rfl : r = some k := h.own w k r (by simp [hw])
  refine ⟨htaken.resolved, ?_, h.paired, ?_, h.mine, h.current, h.past⟩
  · refine h.fits_move (fun q hq => ?_) ?_
    · rw [view_setPromise, view_setTask]
      refine View.ext rfl rfl rfl rfl (update_of_eq ?_) (update_of_eq ?_) ?_ ?_ rfl rfl rfl rfl rfl
      all_goals simp [State.view, State.setTask, Task.pending, hw, hq, Ne.symm hq]
    · convert htaken.resolve using 1
      rw [view_setPromise, view_setTask]
      refine View.ext rfl rfl rfl rfl ?_ ?_ ?_ ?_ rfl rfl rfl rfl rfl
      all_goals simp [State.view, Task.pending]
  · intro w' j r hj
    simp only [State.setTask, State.setPromise, Function.update_apply] at hj
    split_ifs at hj
    · cases hj
    · exact h.own w' j r hj

theorem Follows.release (h : Follows life s) (hw : s.task w = .dropping k) :
    Follows (Function.update life k .ended) ((s.setTask w .idle).dropSession k) := by
  have hanswered : Fits k (.answered w) (s.view k) := h.at ((h.answered_iff w k).mp (by simp [hw]))
  refine ⟨?_, h.paired, ?_, h.mine, h.current, h.past⟩
  · unfold State.dropSession
    refine h.fits_move (fun q hq => ?_) ?_
    · have hlost := hanswered.count_lost { s.promises k with session := false } rfl hq
      rw [view_letGo, view_dropped, view_setTask]
      refine View.ext rfl rfl rfl rfl (update_of_eq ?_) (update_of_eq ?_) ?_ rfl ?_ ?_ rfl rfl rfl
      all_goals simp [State.view, State.setTask, Task.pending, hw, hq, Ne.symm hq, hlost]
    · convert hanswered.release using 1
      rw [view_letGo, view_dropped, view_setTask]
      refine View.ext rfl rfl rfl rfl (update_of_eq ?_) ?_ ?_ rfl ?_ ?_ rfl rfl rfl
      all_goals simp [State.view, State.setTask, Task.pending, hw]
  · intro w' j r hj
    simp only [State.dropSession, State.letGo, State.setTask, Function.update_apply] at hj
    split_ifs at hj
    · cases hj
    · exact h.own w' j r hj

/-- What `Follows` does not look at. -/
theorem Follows.setUnseen (h : Follows life s) (secure handshake linkUp timer asked : Bool)
    (results : ℕ → ConnectResult) : Follows life { s with
      secure := secure
      handshake := handshake
      linkUp := linkUp
      timer := timer
      asked := asked
      results := results } :=
  ⟨h.fits, h.paired, h.own, h.mine, h.current, h.past⟩

end Steps

section Runs

variable {life : ℕ → Life} {s s' : State} {a : Act}

theorem Follows.callerStep (h : Follows life s) (hstep : s.callerStep a = some s') :
    ∃ life', Follows life' s' := by
  cases a with
  | check =>
    dsimp only [State.callerStep] at hstep
    split at hstep
    case h_1 hs =>
      split_ifs at hstep
      · cases hstep
        exact ⟨life, h⟩
      · cases hstep
        exact ⟨life, h.setEmpty (by simp [hs]) rfl (by simp)⟩
    case h_2 => cases hstep
  | busy =>
    dsimp only [State.callerStep] at hstep
    split at hstep
    case h_1 hs =>
      cases hstep
      split_ifs with hbusy
      · exact ⟨life, h.setEmpty (by simp [hs]) rfl (by simp)⟩
      · exact ⟨life, h.setEmpty (by simp [hs]) rfl fun _ => by simpa using hbusy⟩
    case h_2 => cases hstep
  | prepare ok secure =>
    dsimp only [State.callerStep] at hstep
    split at hstep
    case h_1 hs =>
      cases hstep
      split_ifs
      · exact ⟨life, h.setEmpty (by simp [hs]) rfl fun _ => h.past (by simp [hs])⟩
      · exact ⟨life, h.setEmpty (by simp [hs]) rfl (by simp)⟩
    case h_2 => cases hstep
  | build hasResult hasPromise =>
    dsimp only [State.callerStep] at hstep
    split at hstep
    case h_1 hs =>
      split_ifs at hstep
      · cases hstep
        exact ⟨_, h.build hs⟩
      · cases hstep
        exact ⟨_, h.waste hs⟩
      · cases hstep
        exact ⟨life, h.setEmpty (by simp [hs]) rfl (by simp)⟩
    case h_2 => cases hstep
  | publish =>
    dsimp only [State.callerStep] at hstep
    split at hstep <;> cases hstep
    exact ⟨_, h.publish ‹_›⟩
  | startTimer =>
    dsimp only [State.callerStep] at hstep
    split at hstep
    case h_1 k hs =>
      cases hstep
      exact ⟨life, (h.setUnseen s.secure s.handshake s.linkUp true s.asked s.results).setCurrent
        (k := k) (by simp [hs]) rfl (by simp [hs])⟩
    case h_2 => cases hstep
  | send accepted =>
    dsimp only [State.callerStep] at hstep
    split at hstep
    case h_1 k hs =>
      split_ifs at hstep
      · cases hstep
        exact ⟨life, h.hand hs⟩
      · cases hstep
        exact ⟨life, h.setCurrent (k := k) (by simp [hs]) rfl (by simp)⟩
    case h_2 => cases hstep
  | stopTimer =>
    dsimp only [State.callerStep] at hstep
    split at hstep
    case h_1 k hs =>
      cases hstep
      exact ⟨life, (h.setUnseen s.secure s.handshake s.linkUp false s.asked s.results).setCurrent
        (k := k) (by simp [hs]) rfl (by simp)⟩
    case h_2 => cases hstep
  | cleanup =>
    dsimp only [State.callerStep] at hstep
    split at hstep <;> cases hstep
    exact h.cleanup ‹_›
  | leave =>
    dsimp only [State.callerStep] at hstep
    split at hstep <;> cases hstep
    exact h.leave ‹_›
  | _ => cases hstep

theorem Follows.clientStep (h : Follows life s) (hstep : s.clientStep a = some s') :
    Follows life s' := by
  cases a with
  | await k =>
    dsimp only [State.clientStep] at hstep
    split_ifs at hstep with hk
    cases hstep
    exact h.await hk.2.2
  | drop k =>
    dsimp only [State.clientStep] at hstep
    split_ifs at hstep with hk
    cases hstep
    exact h.drop hk.1
  | _ => cases hstep

theorem Follows.kmsgStep (h : Follows life s) (hstep : s.kmsgStep a = some s') :
    Follows life s' := by
  cases a with
  | connectInd statusCode =>
    dsimp only [State.kmsgStep] at hstep
    split at hstep
    case h_1 hw =>
      cases hstep
      have hseen := h.setUnseen s.secure s.handshake s.linkUp s.timer s.asked
      split_ifs
      · split
        · exact (hseen _).setTask (by simp [hw]) (by simp [hw])
        · exact h.setTask (by simp [hw]) (by simp [hw])
      · split
        · exact hseen _
        · exact h
    case h_2 => cases hstep
  | decide =>
    dsimp only [State.kmsgStep] at hstep
    split at hstep
    case h_1 hw =>
      cases hstep
      split_ifs <;> exact h.setTask (by simp [hw]) (by simp [hw])
    case h_2 => cases hstep
  | shake =>
    dsimp only [State.kmsgStep] at hstep
    split at hstep
    case h_1 hw =>
      cases hstep
      exact (h.setUnseen s.secure true s.linkUp s.timer s.asked s.results).setTask
        (by simp [hw]) (by simp [hw])
    case h_2 => cases hstep
  | prolong =>
    dsimp only [State.kmsgStep] at hstep
    split at hstep
    case h_1 hw =>
      cases hstep
      exact (h.setUnseen s.secure s.handshake s.linkUp true s.asked s.results).setTask
        (by simp [hw]) (by simp [hw])
    case h_2 => cases hstep
  | disconnectInd =>
    dsimp only [State.kmsgStep] at hstep
    split at hstep
    case h_1 hw =>
      cases hstep
      exact (h.setUnseen s.secure s.handshake false s.timer s.asked s.results).setTask
        (by simp [hw]) (by simp [hw])
    case h_2 => cases hstep
  | unlink =>
    dsimp only [State.kmsgStep] at hstep
    split at hstep
    case h_1 hw =>
      cases hstep
      split_ifs <;> exact h.setTask (by simp [hw]) (by simp [hw])
    case h_2 => cases hstep
  | _ => cases hstep

theorem Follows.otherStep (h : Follows life s) (hstep : s.otherStep a = some s') :
    Follows life s' := by
  cases a with
  | expire =>
    dsimp only [State.otherStep] at hstep
    split at hstep
    case h_1 hw =>
      split_ifs at hstep
      cases hstep
      exact (h.setUnseen s.secure s.handshake s.linkUp false s.asked s.results).setTask
        (by simp [hw]) (by simp [hw])
    case h_2 => cases hstep
  | callback =>
    dsimp only [State.otherStep] at hstep
    split at hstep
    case h_1 hw =>
      cases hstep
      split_ifs <;> exact h.setTask (by simp [hw]) (by simp [hw])
    case h_2 => cases hstep
  | abort =>
    dsimp only [State.otherStep] at hstep
    split at hstep
    case h_1 hw =>
      cases hstep
      exact (h.setUnseen s.secure s.handshake s.linkUp s.timer true s.results).setTask
        (by simp [hw]) (by simp [hw])
    case h_2 => cases hstep
  | verdict ok =>
    dsimp only [State.otherStep] at hstep
    split at hstep
    case h_1 hw =>
      cases hstep
      exact h.setTask (by simp [hw]) (by simp [hw])
    case h_2 => cases hstep
  | connectLeave =>
    cases hstep
    exact h.setUnseen s.secure s.handshake false s.timer s.asked s.results
  | _ => cases hstep

theorem Follows.finishStep (h : Follows life s) (hstep : s.finishStep a = some s') :
    ∃ life', Follows life' s' := by
  cases a with
  | finish w =>
    dsimp only [State.finishStep] at hstep
    split at hstep
    case h_1 status hw =>
      cases hstep
      exact h.finish hw
    case h_2 => cases hstep
  | quiet w =>
    dsimp only [State.finishStep] at hstep
    split at hstep
    case h_1 k r status hw =>
      cases hstep
      exact ⟨life, (h.setUnseen s.secure s.handshake s.linkUp false s.asked s.results).setTask
        (by simp [hw]) (by simp [hw])⟩
    case h_2 => cases hstep
  | settle w =>
    dsimp only [State.finishStep] at hstep
    split at hstep
    case h_1 k r status hw =>
      obtain rfl : r = some k := h.own w k r (by simp [hw])
      cases hstep
      refine ⟨life, (h.setUnseen s.secure false s.linkUp s.timer s.asked _).setTask ?_ ?_⟩
      all_goals
        split_ifs
        all_goals simp [hw]
    case h_2 => cases hstep
  | link w =>
    dsimp only [State.finishStep] at hstep
    split at hstep
    case h_1 k r hw =>
      cases hstep
      exact ⟨life, (h.setUnseen s.secure s.handshake true s.timer s.asked s.results).setTask
        (by simp [hw]) (by simp [hw])⟩
    case h_2 => cases hstep
  | resolve w =>
    dsimp only [State.finishStep] at hstep
    split at hstep
    case h_1 k r hw =>
      obtain ⟨hresolved, hresolve⟩ := h.resolve hw
      rw [if_neg (by simp [hresolved])] at hstep
      cases hstep
      exact ⟨_, hresolve⟩
    case h_2 => cases hstep
  | release w =>
    dsimp only [State.finishStep] at hstep
    split at hstep
    case h_1 k hw =>
      cases hstep
      exact ⟨_, h.release hw⟩
    case h_2 => cases hstep
  | _ => cases hstep

/-- A step is one of the caller, of the one who has a promise or of one of the tasks. -/
theorem step_cases (hstep : s.step a = some s') : s.callerStep a = some s' ∨
    s.clientStep a = some s' ∨ s.kmsgStep a = some s' ∨ s.otherStep a = some s' ∨
    s.finishStep a = some s' := by
  cases a with
  | await k | drop k => exact .inr (.inl hstep)
  | connectInd code | decide | shake | prolong | disconnectInd | unlink =>
    exact .inr (.inr (.inl hstep))
  | expire | callback | abort | verdict ok | connectLeave => exact .inr (.inr (.inr (.inl hstep)))
  | finish w | quiet w | settle w | link w | resolve w | release w =>
    exact .inr (.inr (.inr (.inr hstep)))
  | _ => exact .inl hstep

/-- Every step moves the associations on, whoever takes it. -/
theorem Follows.step (h : Follows life s) (hstep : s.step a = some s') :
    ∃ life', Follows life' s' := by
  rcases step_cases hstep with hs | hs | hs | hs | hs
  · exact h.callerStep hs
  · exact ⟨life, h.clientStep hs⟩
  · exact ⟨life, h.kmsgStep hs⟩
  · exact ⟨life, h.otherStep hs⟩
  · exact h.finishStep hs

/-! ## What the callers can rely on -/

/-- Where a result can be. -/
inductive Place
  | caller
  | session
  | task (w : Who)
  | promise (k : ℕ)

def State.slot (s : State) : Place → Option ℕ
  | .caller => s.caller.building.or s.caller.withdrawn
  | .session => s.result
  | .task w => (s.task w).carried.bind Prod.snd
  | .promise k => (s.promises k).value

/-- Where the result is, of an association that is so far. -/
def Life.place (k : ℕ) : Life → Option Place
  | built | unsent => some .caller
  | published => some .session
  | taken w => some (.task w)
  | answered _ | ended => some (.promise k)
  | unused | givenUp => none

/-- Every promise that was returned is resolved or about to be, none is resolved twice or with the
result of another association, a result is in one place until it is deleted or awaited once, and the
handles go when nobody needs them. -/
structure Sound (s : State) : Prop where
  answered : ∀ k ∈ s.handed, (s.promises k).resolved = true ∨ s.promise = some k ∨
    ∃ w, (s.task w).pending = some k
  once : s.resolves.Nodup
  own : ∀ k r, (s.promises k).value = some r → r = k
  results : ∀ r < s.next, (s.gone.count r = 1 ∧ ∀ place, s.slot place ≠ some r) ∨
    (r ∉ s.gone ∧ ∃! place, s.slot place = some r)
  held : ∀ k, (s.promises k).value ≠ none → k ∈ s.handed ∨ s.caller.client = some k ∨
    ∃ w, (s.task w).answered = some k
  session : ∀ k, (s.promises k).session = true ↔ s.promise = some k ∨
    ∃ w, (s.task w).pending = some k ∨ (s.task w).answered = some k
  released : s.dropped.Nodup

/-- A result is where its association is. -/
theorem Follows.place (h : Follows life s) {place : Place} {r : ℕ} (hslot : s.slot place = some r) :
    (life r).place r = some place := by
  cases place with
  | caller =>
    rcases Option.or_eq_some_iff.mp hslot with hbuilding | ⟨-, hwithdrawn⟩
    · rw [(h.building_iff r).mp hbuilding]
      rfl
    · rw [(h.withdrawn_iff r).mp hwithdrawn]
      rfl
  | session =>
    rw [(h.promise_iff r).mp (h.paired.symm.trans hslot)]
    rfl
  | task w =>
    obtain ⟨⟨k, r'⟩, hcarried, hr⟩ := Option.bind_eq_some_iff.mp hslot
    obtain rfl : r' = some r := hr
    obtain rfl : r = k := Option.some.inj (h.own w k _ hcarried)
    rw [(h.pending_iff w r).mp (by rw [Task.pending, hcarried, Option.map_some])]
    rfl
  | promise k =>
    obtain ⟨rfl, hanswered⟩ := (h.fits k).own r hslot
    cases hlife : life r <;> simp_all [Life.place]

theorem Follows.payload (h : Follows life s) {r : ℕ} (hanswered : (life r).isAnswered = true)
    (hgone : s.gone.count r = 0) : (s.promises r).value = some r := by
  have hcount := h.count_gone r
  cases hvalue : (s.promises r).value with
  | none =>
    rw [if_pos (.inr ⟨hanswered, hvalue⟩)] at hcount
    omega
  | some r' => rw [((h.fits r).own r' hvalue).1]

/-- And it is there, unless it is gone. -/
theorem Follows.slot (h : Follows life s) {place : Place} {r : ℕ}
    (hplace : (life r).place r = some place) (hgone : s.gone.count r = 0) :
    s.slot place = some r := by
  have hpayload := fun hanswered => h.payload (r := r) hanswered hgone
  cases hlife : life r with
  | unused | givenUp => simp [hlife, Life.place] at hplace
  | built =>
    obtain rfl : Place.caller = place := by simpa [hlife, Life.place] using hplace
    exact Option.or_eq_some_iff.mpr (.inl ((h.building_iff r).mpr hlife))
  | unsent =>
    obtain rfl : Place.caller = place := by simpa [hlife, Life.place] using hplace
    have hwithdrawn := (h.withdrawn_iff r).mpr hlife
    refine Option.or_eq_some_iff.mpr (.inr ⟨?_, hwithdrawn⟩)
    cases hs : s.caller <;> simp_all
  | published =>
    obtain rfl : Place.session = place := by simpa [hlife, Life.place] using hplace
    exact h.paired.trans ((h.promise_iff r).mpr hlife)
  | taken w =>
    obtain rfl : Place.task w = place := by simpa [hlife, Life.place] using hplace
    obtain ⟨⟨k, r'⟩, hcarried, hk⟩ := Option.map_eq_some_iff.mp ((h.pending_iff w r).mpr hlife)
    obtain rfl : k = r := hk
    exact Option.bind_eq_some_iff.mpr ⟨_, hcarried, h.own w k r' hcarried⟩
  | answered w =>
    obtain rfl : Place.promise r = place := by simpa [hlife, Life.place] using hplace
    exact hpayload (by rw [hlife]; rfl)
  | ended =>
    obtain rfl : Place.promise r = place := by simpa [hlife, Life.place] using hplace
    exact hpayload (by rw [hlife]; rfl)

/-- A result that is gone is nowhere. -/
theorem Follows.slot_of_gone (h : Follows life s) {r : ℕ} (hgone : s.gone.count r ≠ 0)
    (place : Place) : s.slot place ≠ some r := by
  intro hslot
  have hplace := h.place hslot
  have hcount := h.count_gone r
  split_ifs at hcount with hwhy
  · rcases hwhy with hlife | ⟨hanswered, hvalue⟩
    · simp [hlife, Life.place] at hplace
    · obtain rfl : Place.promise r = place := by
        cases hlife : life r <;> simp_all [Life.place]
      rw [show (s.promises r).value = some r from hslot] at hvalue
      cases hvalue
  · exact hgone hcount

theorem Follows.sound (h : Follows life s) : Sound s where
  answered k hk := by
    have hhanded := (h.fits k).handed (decide_eq_true hk)
    have hresolved : (s.promises k).resolved = (life k).isAnswered := (h.fits k).resolved
    cases hlife : life k with
    | published => exact .inr (.inl ((h.promise_iff k).mpr hlife))
    | taken w => exact .inr (.inr ⟨w, (h.pending_iff w k).mpr hlife⟩)
    | answered w => exact .inl (by rw [hresolved, hlife]; rfl)
    | ended => exact .inl (by rw [hresolved, hlife]; rfl)
    | _ => simp [hlife] at hhanded
  once := List.nodup_iff_count_le_one.mpr fun k => by
    have hcount : s.resolves.count k = if (life k).isAnswered then 1 else 0 := (h.fits k).resolves
    split_ifs at hcount <;> omega
  own k r hr := ((h.fits k).own r hr).1
  results r hr := by
    have hcount := h.count_gone r
    by_cases hgone : s.gone.count r = 0
    · have hplace : ∃ place, (life r).place r = some place := by
        have hunused := (h.used_iff r).mp hr
        split_ifs at hcount with hwhy
        · omega
        · cases hlife : life r <;> simp_all [Life.place]
      obtain ⟨place, hplace⟩ := hplace
      refine .inr ⟨List.count_eq_zero.mp hgone, place, h.slot hplace hgone, fun other hother => ?_⟩
      exact Option.some.inj ((h.place hother).symm.trans hplace)
    · refine .inl ⟨?_, h.slot_of_gone hgone⟩
      split_ifs at hcount <;> omega
  held k hvalue := by
    obtain ⟨r, hr⟩ := Option.ne_none_iff_exists'.mp hvalue
    have hanswered := ((h.fits k).own r hr).2
    rcases (h.fits k).alive hvalue with hclient | hsession
    · have howner := (h.fits k).owner hclient
      exact (howner.imp of_decide_eq_true beq_iff_eq.mp).imp_right .inl
    · rw [(h.fits k).session] at hsession
      cases hlife : life k with
      | answered w => exact .inr (.inr ⟨w, (h.answered_iff w k).mpr hlife⟩)
      | _ => simp [hlife] at hanswered hsession
  session k := by
    have hsession : (s.promises k).session = (life k).isHeld := (h.fits k).session
    simp only [hsession, h.promise_iff, h.pending_iff, h.answered_iff]
    cases life k <;> simp
  released := List.nodup_iff_count_le_one.mpr fun k => by
    have hcount : s.dropped.count k = if (life k).isOver then 1 else 0 := (h.fits k).dropped
    split_ifs at hcount <;> omega

/-- In every run of the caller and of the tasks that end its associations. -/
theorem wifiSta_sound {as : List Act} {s : State} (hrun : runSteps State.step init as = some s) :
    Sound s := by
  have hstep : ∀ s a s', (∃ life, Follows life s) → State.step s a = some s' →
      ∃ life, Follows life s' := fun _ _ _ ⟨_, h⟩ hs => h.step hs
  obtain ⟨_, h⟩ := invariant_of_steps hstep ⟨_, follows_init⟩ hrun
  exact h.sound

end Runs

/-- The caller of `wifi_sta_start` up to where the request went out. -/
def start (secure : Bool) : List Act :=
  [.check, .busy, .prepare true secure, .build true true, .publish, .startTimer, .send true]

/-- The timer expires while the supplicant says that the handshake is done. -/
def bothFinish : List Act :=
  start true ++ [.connectInd 0, .decide, .shake, .prolong, .expire, .verdict true,
    .finish .supplicant, .quiet .supplicant, .settle .supplicant, .callback, .finish .timer,
    .link .supplicant, .resolve .supplicant, .await 0, .drop 0, .release .supplicant]

theorem wifiSta_sound_bothFinish : ∃ s, runSteps State.step init bothFinish = some s ∧
    s.resolves = [0] ∧ s.gone = [0] ∧ s.dropped = [0] ∧ s.linkUp = true ∧ Sound s := by
  have hend : (runSteps State.step init bothFinish).map
      (fun s => (s.resolves, s.gone, s.dropped, s.linkUp)) = some ([0], [0], [0], true) := by
    decide +kernel
  obtain ⟨s, hs, heq⟩ := Option.map_eq_some_iff.mp hend
  simp only [Prod.mk.injEq] at heq
  exact ⟨s, hs, heq.1, heq.2.1, heq.2.2.1, heq.2.2.2, wifiSta_sound hs⟩

end BekenCam.Sta
