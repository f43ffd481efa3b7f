import BekenCam.IntcTable

/-!
# What an interrupt pass calls

A pass collects the functions of the pending sources before it calls the first of them, in an array
with room for four. The functions may change the table; the ones that are called were chosen before.
-/
namespace BekenCam.Intc

variable {η σ : Type*} {events : List (Event η)} {status : BitVec 32}

/-- The surroundings with a log of the functions called. -/
def Surroundings.logged (m : Surroundings η σ) : Surroundings η (σ × List η) where
  run f s :=
    let t := m.run f { manager := s.manager, irqEnable := s.irqEnable, rest := s.rest.1 }
    { manager := t.manager, irqEnable := t.irqEnable, rest := (t.rest, s.rest.2 ++ [f]) }
  acknowledge status r := (m.acknowledge status r.1, r.2)

/-- `f` is registered for one of the pending sources. -/
def Serves (events : List (Event η)) (status : BitVec 32) (f : η) : Prop :=
  ∃ i, status.getLsbD i = true ∧ Held events f i

/-- Each function registered for a pending source is called once, and no other. -/
structure Dispatched (events : List (Event η)) (status : BitVec 32) (called : List η) : Prop where
  once : called.Nodup
  serves : ∀ f, f ∈ called ↔ Serves events status f

/-- A pass returns, and the functions it has called are those it has to call. -/
def PassDispatches (events : List (Event η)) (status : BitVec 32) (s : Core η (σ × List η))
    (result : Option (Core η (σ × List η))) : Prop :=
  ∃ s' called, result = some s' ∧ s'.rest.2 = s.rest.2 ++ called ∧
    Dispatched events status called

/-- The functions whose rows meet the status. -/
def pendingHandlers (rows : List (InterruptHandler η)) (status : BitVec 32) : List η :=
  (rows.filter fun h => h.source &&& status ≠ 0).map (·.handler)

theorem inter_ne_zero {source : BitVec 32} :
    source &&& status ≠ 0 ↔ ∃ i, status.getLsbD i = true ∧ source.getLsbD i = true := by
  constructor
  · intro h
    obtain ⟨i, hi⟩ := exists_bit h
    rw [BitVec.getLsbD_and, Bool.and_eq_true] at hi
    exact ⟨i, hi.2, hi.1⟩
  · rintro ⟨i, hstatus, hsource⟩ hzero
    have hbit : (source &&& status).getLsbD i = true := by
      rw [BitVec.getLsbD_and, hsource, hstatus]
      rfl
    rw [hzero] at hbit
    simp at hbit

theorem Rows.dispatched {rows : List (InterruptHandler η)} (h : Rows events rows) :
    Dispatched events status (pendingHandlers rows status) := by
  refine ⟨h.once.sublist (List.filter_sublist.map _), fun f => ?_⟩
  rw [pendingHandlers, List.mem_map]
  constructor
  · rintro ⟨row, hrow, rfl⟩
    obtain ⟨hmem, hmeets⟩ := List.mem_filter.mp hrow
    obtain ⟨i, hstatus, hsource⟩ := inter_ne_zero.mp (of_decide_eq_true hmeets)
    exact ⟨i, hstatus, (h.source row hmem i).mp hsource⟩
  · rintro ⟨i, hstatus, hheld⟩
    obtain ⟨row, hrow, rfl⟩ := List.mem_map.mp ((h.live f).mpr ⟨i, hheld⟩)
    have hmeets := inter_ne_zero.mpr ⟨i, hstatus, (h.source row hrow i).mpr hheld⟩
    exact ⟨row, List.mem_filter.mpr ⟨hrow, decide_eq_true hmeets⟩, rfl⟩

theorem Dispatched.encard {called : List η} (h : Dispatched events status called) :
    {f | Serves events status f}.encard = called.length := by
  classical
  have hset : {f | Serves events status f} = (called.toFinset : Set η) := by
    ext f
    simp [← h.serves f]
  rw [hset, Set.encard_coe_eq_coe_finsetCard, List.toFinset_card_of_nodup h.once]

section Passes

variable {m : Surroundings η σ} {s : Core η (σ × List η)} {mask pending : BitVec 32}

theorem foldl_logged (fs : List η) (s : Core η (σ × List η)) :
    (fs.foldl (fun s f => m.logged.run f s) s).rest.2 = s.rest.2 ++ fs := by
  induction fs generalizing s with
  | nil => exact (List.append_nil _).symm
  | cons f fs ih =>
    rw [List.foldl_cons, ih]
    exact List.append_assoc _ [f] fs

/-- The array takes all functions where the assertion holds. -/
theorem processHandlers_eq {τ : Type*} (m : Surroundings η τ) (s : Core η τ) :
    m.processHandlers status s =
      if (pendingHandlers s.manager.handlers status).length ≤ 4 then
        some ((pendingHandlers s.manager.handlers status).foldl (fun s f => m.run f s) s)
      else none := by
  unfold Surroundings.processHandlers findHandlers
  dsimp only
  show (if (pendingHandlers s.manager.handlers status).length ≤ 4 then _ else _) = _
  split_ifs with hfew
  · show some (((pendingHandlers s.manager.handlers status).take 4).foldl _ s) = _
    rw [List.take_of_length_le hfew]
  · rfl

theorem servePass_dispatches_iff (h : Table events s.manager) (hstatus : pending &&& mask ≠ 0) :
    PassDispatches events (pending &&& mask) s (m.logged.servePass mask pending s) ↔
      {f | Serves events (pending &&& mask) f}.encard ≤ 4 := by
  have hdone : Dispatched events (pending &&& mask) _ := h.rows.dispatched
  have hcard : {f | Serves events (pending &&& mask) f}.encard ≤ 4 ↔
      (pendingHandlers s.manager.handlers (pending &&& mask)).length ≤ 4 := by
    rw [hdone.encard]
    exact Nat.cast_le_ofNat
  rw [hcard, Surroundings.servePass]
  dsimp only
  rw [if_neg hstatus, processHandlers_eq]
  dsimp only
  constructor
  · rintro ⟨s', called, hpass, -, -⟩
    by_contra hmany
    rw [if_neg hmany] at hpass
    cases hpass
  · intro hfew
    rw [if_pos hfew]
    refine ⟨_, _, rfl, ?_, hdone⟩
    have hlog := foldl_logged (m := m) (pendingHandlers s.manager.handlers (pending &&& mask))
      { s with rest := m.logged.acknowledge (pending &&& mask) s.rest }
    split_ifs
    · exact hlog
    · exact hlog

end Passes

/-- However the table came about, a pass with a pending source calls every function registered for
one once and no other, and meets no failing assertion, exactly when at most four are. -/
theorem pass_dispatches_iff [DecidableEq η] (m : Surroundings η σ) (irqEnable : BitVec 32)
    (rest : σ) (events : List (Event η)) (hcalls : ∀ e ∈ events, e.Call) (s : Core η (σ × List η))
    (hrun : runSteps m.logged.step (Core.start irqEnable (rest, [])) events = some s)
    (pending : BitVec 32) :
    (pending &&& irqMask ≠ 0 →
      (PassDispatches events (pending &&& irqMask) s (m.logged.intcIrq pending s) ↔
        {f | Serves events (pending &&& irqMask) f}.encard ≤ 4)) ∧
    (pending &&& fiqMask ≠ 0 →
      (PassDispatches events (pending &&& fiqMask) s (m.logged.intcFiq pending s) ↔
        {f | Serves events (pending &&& fiqMask) f}.encard ≤ 4)) := by
  have htable := table_of_calls hcalls hrun
  exact ⟨servePass_dispatches_iff htable, servePass_dispatches_iff htable⟩

/-- Functions that do nothing. -/
def still (η : Type*) : Surroundings η Unit where
  run _ s := s
  acknowledge _ r := r

theorem pass_dispatches_iff_two :
    PassDispatches [.register 5 0, .register 2 (1 : Fin 2)] 4
        { manager := { handledMask := 7, handlers := [⟨0, 5⟩, ⟨1, 2⟩] }, irqEnable := 7, rest := ((), []) }
        ((still (Fin 2)).logged.intcIrq 4
          { manager := { handledMask := 7, handlers := [⟨0, 5⟩, ⟨1, 2⟩] }, irqEnable := 7,
            rest := ((), []) }) ↔
      {f | Serves [.register 5 0, .register 2 (1 : Fin 2)] 4 f}.encard ≤ 4 :=
  (pass_dispatches_iff (still (Fin 2)) 7 () [.register 5 0, .register 2 1]
    (by simp [Event.Call]) _ rfl 4).1 (by decide)

/-- Five functions for one source. -/
theorem pass_fails_with_five :
    ¬∀ (events : List (Event (Fin 5))) (s : Core (Fin 5) (Unit × List (Fin 5))),
      (∀ e ∈ events, e.Call) →
      runSteps (still (Fin 5)).logged.step (Core.start 1 ((), [])) events = some s →
      ∀ pending : BitVec 32, pending &&& irqMask ≠ 0 →
        PassDispatches events (pending &&& irqMask) s
          ((still (Fin 5)).logged.intcIrq pending s) := by
  intro h
  obtain ⟨s', called, hpass, -, -⟩ := h
    [.register 1 0, .register 1 1, .register 1 2, .register 1 3, .register 1 4] _
    (by simp [Event.Call]) rfl 1 (by decide)
  cases hpass

end BekenCam.Intc
